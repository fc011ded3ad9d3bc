import Sketchwright.Proofs.Naming

/-! The discipline of scopes inside a function. Whatever blocks and loops do in between, a body
leaves each of them with the names that it had, with those that were declared outside all blocks,
and with those that were hoisted, in the order in which they were first assigned. -/

namespace Sketchwright.Inference

/-- If each of two lists of names holds first occurrences in order, and no name of the first line
comes in the second list of names, then so does the list of both. -/
theorem eraseDups_filter_append {firsts more xs ys : List String}
    (hfirsts : firsts = (xs.filter firsts.contains).eraseDups)
    (hmore : more = (ys.filter more.contains).eraseDups) (hxs : ∀ x ∈ xs, x ∉ more) :
    firsts ++ more = ((xs ++ ys).filter (firsts ++ more).contains).eraseDups := by
  have hmem : ∀ x, x ∈ xs.filter firsts.contains ↔ x ∈ firsts := by
    intro x
    rw [← List.mem_eraseDups, ← hfirsts]
  have hleft : xs.filter (firsts ++ more).contains = xs.filter firsts.contains := by
    apply List.filter_congr
    intro x hx
    simp [hxs x hx]
  have hright : (ys.filter (firsts ++ more).contains).removeAll (xs.filter firsts.contains) =
      ys.filter more.contains := by
    rw [List.removeAll, List.filter_filter]
    apply List.filter_congr
    intro y _
    by_cases hy : y ∈ firsts
    · have hnot : y ∉ more := hxs y (List.mem_filter.mp ((hmem y).mpr hy)).1
      simp [hmem, hy, hnot]
    · simp [hmem, hy]
  rw [List.filter_append, List.eraseDups_append, hleft, hright, ← hfirsts, ← hmore]

/-- The kind of a local name. -/
def Scope.localKind? (s : Scope) (name : String) : Option Kind :=
  (s.locals.lookup name).map Variable.kind

namespace Frame

/-- What a body gains on the way from one frame to another: the names that statements declare and
those that they hoist. The names that are assigned on the way are bound in the end. -/
structure Gains (old new : Frame) (declared added : List (String × Kind))
    (assigned : List String) : Prop where
  hoisted : new.hoisted = old.hoisted ++ added
  own : ∀ x kind, new.scope.meaning x = .own kind ↔
    old.scope.meaning x = .own kind ∨ (x, kind) ∈ declared ++ added
  fresh : ∀ v ∈ declared ++ added, ∀ kind, old.scope.meaning v.1 ≠ .own kind
  order : added.map Prod.fst = (assigned.filter (added.map Prod.fst).contains).eraseDups
  bound : ∀ x ∈ assigned, ∃ kind, new.scope.bound? x = some kind

theorem Wf.bound_of_shared {table : CallTable} {fr : Frame} (h : fr.Wf table) {x : String}
    (hx : x ∈ fr.scope.shared) : ∃ kind, fr.scope.bound? x = some kind := by
  obtain ⟨_, kind, hm⟩ := h.shared x hx
  have hshared : fr.scope.isShared x = true := by simpa [Scope.isShared] using hx
  exact ⟨kind, by simp [Scope.bound?, hm, hshared]⟩

/-- In a body that is well under way the local names are those that mean themselves. -/
theorem Wf.localKind?_eq_some {table : CallTable} {fr : Frame} (h : fr.Wf table) {x : String}
    {kind : Kind} :
    fr.scope.localKind? x = some kind ↔ fr.scope.meaning x = .own kind := by
  have hlocal : fr.scope.local? x = fr.scope.locals.lookup x := by
    rw [Scope.local?]
    split
    · next hshared => exact (h.shared x (by simpa [Scope.isShared] using hshared)).1.symm
    · rfl
  rw [Scope.localKind?, Scope.meaning_eq, hlocal]
  cases hlookup : fr.scope.locals.lookup x with
  | none => simpa using Scope.outward_ne_own fr.scope x kind
  | some v => simp

theorem Wf.localKind?_eq_none {table : CallTable} {fr : Frame} (h : fr.Wf table) {x : String} :
    fr.scope.localKind? x = none ↔ ∀ kind, fr.scope.meaning x ≠ .own kind := by
  rw [Option.eq_none_iff_forall_ne_some]
  simp only [ne_eq, h.localKind?_eq_some]

namespace Gains

variable {table : CallTable} {old mid new : Frame}
  {declared more added extra : List (String × Kind)}
  {assigned others : List String}

/-- Where all names keep their meanings, nothing is gained. -/
theorem of_meaning (hhoisted : new.hoisted = old.hoisted)
    (hmeaning : ∀ x, new.scope.meaning x = old.scope.meaning x)
    (hbound : ∀ x ∈ assigned, ∃ kind, new.scope.bound? x = some kind) :
    old.Gains new [] [] assigned where
  hoisted := by simp [hhoisted]
  own := by simp [hmeaning]
  fresh := List.forall_mem_nil _
  order := by
    rw [List.map_nil, List.filter_eq_nil_iff.mpr (by simp)]
    rfl
  bound := hbound

theorem nil (fr : Frame) : fr.Gains fr [] [] [] :=
  of_meaning rfl (fun _ => rfl) (List.forall_mem_nil _)

theorem readAll (names : List String) (h : (old.readAll names).Gains new declared added assigned) :
    old.Gains new declared added assigned where
  hoisted := h.hoisted
  own := by simpa [Frame.readAll] using h.own
  fresh := by simpa [Frame.readAll] using h.fresh
  order := h.order
  bound := h.bound

theorem enter (h : old.enter.Gains new declared added assigned) :
    old.Gains new declared added assigned :=
  ⟨h.hoisted, h.own, h.fresh, h.order, h.bound⟩

theorem leave (h : old.Gains new declared added assigned) :
    old.Gains new.leave declared added assigned :=
  ⟨h.hoisted, h.own, h.fresh, h.order, h.bound⟩

theorem loop {var : String} (h : (old.enterLoop var).Gains new declared added assigned) :
    old.Gains (new.afterLoop var .reassign) declared added assigned :=
  ⟨h.hoisted, h.own, h.fresh, h.order, h.bound⟩

/-- What is gained on two ways in sequence. A name that is assigned on the first one is bound when
the second one starts, so that it is not hoisted there. -/
theorem trans (h₁ : old.Gains mid declared added assigned) (h₂ : mid.Gains new more extra others)
    (hwf : new.Wf table) (hshared : mid.scope.shared ⊆ new.scope.shared) :
    old.Gains new (declared ++ more) (added ++ extra) (assigned ++ others) := by
  have hmem : ∀ v, v ∈ declared ++ more ++ (added ++ extra) ↔
      v ∈ declared ++ added ∨ v ∈ more ++ extra := by
    intro v
    simp only [List.mem_append]
    tauto
  constructor
  · rw [h₂.hoisted, h₁.hoisted, List.append_assoc]
  · intro x kind
    rw [h₂.own, h₁.own, hmem, or_assoc]
  · intro v hv kind hown
    rcases (hmem v).mp hv with hv | hv
    · exact h₁.fresh v hv kind hown
    · exact h₂.fresh v hv kind ((h₁.own v.1 kind).mpr (.inl hown))
  · rw [List.map_append]
    apply eraseDups_filter_append h₁.order h₂.order
    intro x hx hadded
    obtain ⟨v, hv, rfl⟩ := List.mem_map.mp hadded
    obtain ⟨kind, hbound⟩ := h₁.bound v.1 hx
    by_cases hmid : v.1 ∈ mid.scope.shared
    · obtain ⟨_, outer, houter⟩ := hwf.shared v.1 (hshared hmid)
      have hown := (h₂.own v.1 v.2).mpr (.inr (List.mem_append_right _ hv))
      rw [houter] at hown
      cases hown
    · exact h₂.fresh v (List.mem_append_right _ hv) kind (Scope.own_of_bound hbound hmid)
  · intro x hx
    rcases List.mem_append.mp hx with hx | hx
    · obtain ⟨kind, hbound⟩ := h₁.bound x hx
      by_cases hmid : x ∈ mid.scope.shared
      · exact hwf.bound_of_shared (hshared hmid)
      · have hown := (h₂.own x kind).mpr (.inl (Scope.own_of_bound hbound hmid))
        exact ⟨kind, by simp [Scope.bound?, hown]⟩
    · exact h₂.bound x hx

variable {fr last : Frame} {name : String} {kind : Kind} {line : Nat}

theorem bound_declare (h : fr.Wf table) (hfree : fr.scope.Free name) :
    (fr.declare name kind line).scope.bound? name = some kind := by
  have hown := (h.meaning_declare kind line hfree name).trans (if_pos rfl)
  simp [Scope.bound?, hown]

/-- A declaration gains its name, which goes to the declared ones or to the hoisted ones. -/
theorem own_declare (h : fr.Wf table) (hfree : fr.scope.Free name) (x : String) (k : Kind) :
    (fr.declare name kind line).scope.meaning x = .own k ↔
      fr.scope.meaning x = .own k ∨ (x, k) = (name, kind) := by
  rw [h.meaning_declare kind line hfree x, Prod.mk.injEq]
  by_cases hx : x = name
  · subst hx
    simp [hfree.not_own k, eq_comm]
  · simp [hx]

theorem declare (h : fr.Wf table) (hfree : fr.scope.Free name) :
    fr.Gains (fr.declare name kind line) [(name, kind)] [] [name] where
  hoisted := by simp [Frame.declare]
  own x k := by simpa using own_declare h hfree x k
  fresh := List.forall_mem_singleton.mpr hfree.not_own
  order := by simp
  bound := List.forall_mem_singleton.mpr ⟨kind, bound_declare h hfree⟩

theorem hoist (h : fr.Wf table) (hfree : fr.scope.Free name) :
    fr.Gains (fr.hoist name kind line) [] [(name, kind)] [name] where
  hoisted := rfl
  own x k := (own_declare h hfree x k).trans (by simp)
  fresh := List.forall_mem_singleton.mpr hfree.not_own
  order := by simp [List.eraseDups_cons]
  bound := List.forall_mem_singleton.mpr ⟨kind, bound_declare h hfree⟩

/-- A loop that declares its variable gains what its body gains: the variable was not there before
it, and is not there after it. -/
theorem declaringLoop (hwf : fr.Wf table) (hfree : fr.scope.Free name) (hlast : last.Wf table)
    (hextends : ((fr.declare name kind line).enterLoop name).Extends last) (hnot : name ∉ assigned)
    (h : ((fr.declare name kind line).enterLoop name).Gains last [] added assigned) :
    fr.Gains (last.afterLoop name (.declare kind)) [] added assigned := by
  obtain ⟨_, _, hm⟩ := hwf.afterDeclaringLoop hfree hlast hextends
  have hdeclared : ∀ x k, (fr.declare name kind line).scope.meaning x = .own k ↔
      fr.scope.meaning x = .own k ∨ (x, k) = (name, kind) := own_declare hwf hfree
  have hne : ∀ v ∈ added, v.1 ≠ name := by
    intro v hv hname
    exact h.fresh v hv kind ((hdeclared v.1 kind).mpr (.inr (by rw [hname])))
  constructor
  · exact h.hoisted
  · intro x k
    rw [hm]
    by_cases hx : x = name
    · subst hx
      have hnone : (x, k) ∉ added := fun hmem => hne _ hmem rfl
      simp [hnone]
    · have hlast := (h.own x k).trans (or_congr_left (hdeclared x k))
      simpa [hx] using hlast
  · intro v hv k hown
    exact h.fresh v hv k ((hdeclared v.1 k).mpr (.inl hown))
  · exact h.order
  · intro x hx
    have hxname : x ≠ name := fun heq => hnot (heq ▸ hx)
    obtain ⟨k, hbound⟩ := h.bound x hx
    have hsame : (last.afterLoop name (.declare kind)).scope.bound? x = last.scope.bound? x := by
      simp only [Scope.bound?, hm, if_neg hxname]
      rfl
    exact ⟨k, hsame.trans hbound⟩

end Gains

end Frame

section Statements

variable {table : CallTable} {fr fr' : Frame}

/-- Inside blocks no statement declares a name. -/
theorem Binds.declared?_eq_none {stmt stmt' : Stmt} {readings : List Reading}
    (h : Binds table fr stmt stmt' fr' readings) (hdepth : fr.depth ≠ 0) :
    stmt'.declared? = none := by
  cases h with
  | first _ _ _ hzero => exact absurd hzero hdepth
  | inert hstmt => cases stmt <;> first | rfl | cases hstmt
  | _ => rfl

theorem BindsAll.declaredIn_eq_nil {stmts stmts' : List Stmt} {readings : List Reading}
    (h : BindsAll table fr stmts stmts' fr' readings) (hwf : fr.Wf table) (hdepth : fr.depth ≠ 0) :
    declaredIn stmts' = [] := by
  induction stmts generalizing fr stmts' readings with
  | nil =>
    cases h
    rfl
  | cons stmt stmts ih =>
    cases h with
    | cons hhead htail =>
      obtain ⟨hwf₁, hextends⟩ := hhead.extends hwf
      have hmore := ih htail hwf₁ (hextends.depth ▸ hdepth)
      simpa [declaredIn, hhead.declared?_eq_none hdepth] using hmore

mutual

/-- A statement gains what it declares and what it hoists. -/
theorem Binds.gains {fr fr' : Frame} {stmt stmt' : Stmt} {readings : List Reading}
    (h : Binds table fr stmt stmt' fr' readings) (hwf : fr.Wf table) :
    ∃ added, fr.Gains fr' (declaredIn [stmt']) added stmt.assigned := by
  cases h with
  | @again _ _ name value _ _ kind _ _ hbound =>
    refine ⟨[], .readAll value.vars (.of_meaning rfl (fun _ => rfl) ?_)⟩
    exact List.forall_mem_singleton.mpr ⟨kind, (Scope.bound?_readAll ..).trans hbound⟩
  | @first _ _ _ value _ _ _ _ hfree =>
    exact ⟨[], .readAll value.vars (.declare (hwf.readAll _).1 hfree)⟩
  | @hoist _ _ _ value _ _ _ _ hfree =>
    exact ⟨_, .readAll value.vars (.hoist (hwf.readAll _).1 hfree)⟩
  | element => exact ⟨[], .readAll _ (.readAll _ (.nil _))⟩
  | @conditional _ _ condition _ _ _ _ _ _ _ _ hthen helse =>
    have hwf₁ := (hwf.readAll condition.vars).1.enter
    obtain ⟨hwf₂, hextends⟩ := hthen.extends hwf₁
    obtain ⟨hwf₃, hextends'⟩ := helse.extends hwf₂
    have hinside : (fr.read condition).enter.depth ≠ 0 := Nat.succ_ne_zero _
    obtain ⟨added, hgains⟩ := hthen.gains hwf₁
    obtain ⟨extra, hgains'⟩ := helse.gains hwf₂
    rw [hthen.declaredIn_eq_nil hwf₁ hinside] at hgains
    rw [helse.declaredIn_eq_nil hwf₂ (hextends.depth ▸ hinside)] at hgains'
    exact ⟨_, .readAll condition.vars (hgains.trans hgains' hwf₃ hextends'.shared).enter.leave⟩
  | @loopAgain _ _ var bounds _ _ _ _ _ _ _ _ hloop =>
    have hwf₁ := (hwf.readAll (Expr.varsAll bounds.exprs)).1.enterLoop var
    obtain ⟨added, hgains⟩ := hloop.gains hwf₁
    rw [hloop.declaredIn_eq_nil hwf₁ (Nat.succ_ne_zero _)] at hgains
    exact ⟨added, .readAll _ hgains.loop⟩
  | @loopFirst _ line var bounds _ _ _ _ _ _ _ hfree hloop =>
    have hwf₁ := (hwf.readAll (Expr.varsAll bounds.exprs)).1
    have hwf₂ := (hwf₁.declare .int line hfree).1.enterLoop var
    obtain ⟨hwf₃, hextends⟩ := hloop.extends hwf₂
    obtain ⟨added, hgains⟩ := hloop.gains hwf₂
    rw [hloop.declaredIn_eq_nil hwf₂ (Nat.succ_ne_zero _)] at hgains
    have hnot :=
      (hloop.barred hwf₂ (.inl (.inl List.mem_cons_self)) fun _ => .inl List.mem_cons_self).1
    exact ⟨added, .readAll _ (.declaringLoop hwf₁ hfree hwf₃ hextends hnot hgains)⟩
  | expr => exact ⟨[], .readAll _ (.nil _)⟩
  | @give _ _ value =>
    exact ⟨[], .readAll value.vars (.of_meaning rfl (fun _ => rfl) (List.forall_mem_nil _))⟩
  | bare => exact ⟨[], .of_meaning rfl (fun _ => rfl) (List.forall_mem_nil _)⟩
  | share hnames =>
    have hmeaning := Frame.meaning_share fun name hname => (hnames name hname).1
    exact ⟨[], .of_meaning rfl hmeaning (List.forall_mem_nil _)⟩
  | inert hstmt =>
    refine ⟨[], ?_⟩
    cases stmt with
    | comment | blank | pass | stop | skip => exact .nil fr
    | _ => cases hstmt

theorem BindsAll.gains {fr fr' : Frame} {stmts stmts' : List Stmt} {readings : List Reading}
    (h : BindsAll table fr stmts stmts' fr' readings) (hwf : fr.Wf table) :
    ∃ added, fr.Gains fr' (declaredIn stmts') added (assignedIn stmts) := by
  cases h with
  | nil => exact ⟨[], .nil fr⟩
  | @cons _ _ _ stmt' stmts' _ _ _ _ hhead htail =>
    obtain ⟨hwf₁, _⟩ := hhead.extends hwf
    obtain ⟨hwf₂, hextends⟩ := htail.extends hwf₁
    obtain ⟨added, hgains⟩ := hhead.gains hwf
    obtain ⟨extra, hgains'⟩ := htail.gains hwf₁
    refine ⟨added ++ extra, ?_⟩
    have hdeclared : declaredIn (stmt' :: stmts') = declaredIn [stmt'] ++ declaredIn stmts' :=
      List.filterMap_append (l := [stmt'])
    rw [hdeclared]
    exact hgains.trans hgains' hwf₂ hextends.shared

end

/-- A variable that a loop declares is gone after the loop. -/
theorem Binds.released {stmt : Stmt} {line : Nat} {var : String} {bounds : Bounds} {kind : Kind}
    {body : List Stmt} {readings : List Reading}
    (h : Binds table fr stmt (.loop line var bounds (.declare kind) body) fr' readings) :
    fr'.scope.isLocal var = false := by
  cases h with
  | @loopFirst _ _ _ _ _ _ _ last =>
    have hremoved := Scope.lookup_remove last.scope var var
    rw [if_pos rfl] at hremoved
    exact Option.isSome_eq_false_iff.mpr (Option.isNone_iff_eq_none.mpr hremoved)
  | inert hstmt => cases hstmt

end Statements

/-- The states in which inference comes to a statement of a function body: where the body starts,
after a statement that it accepts, and inside a branch or a loop whose head it accepts. -/
inductive Reached (env : Env) : State → Prop
  | start (functions : Functions) (events : List Event) (globals : Variables) (task : Task)
    (kinds : List Kind) :
      Reached env ⟨functions, .ofScope (bodyScope globals task kinds), events⟩
  | stmt {s s' stmt found} (h : Reached env s)
    (hends : Ends (inferStmt env stmt) s (.ok found) s') : Reached env s'
  | branch {s s' line condition} (h : Reached env s)
      (hends : Ends (do checkCondition env line condition; enterBlock) s (.ok ()) s') :
      Reached env s'
  | loop {s s' line var bounds binding} (h : Reached env s)
      (hends : Ends (do
        checkBounds env line bounds
        let binding ← bindLoopVar var line
        enterBlock
        enterLoop var
        return binding) s (.ok binding) s') : Reached env s'

section Runs

variable {env : Env} {s s' : State}

theorem checkCondition_frame (htable : env.table.Sound) {line : Nat} {condition : Expr}
    (h : Ends (do checkCondition env line condition; enterBlock) s (.ok ()) s') :
    s'.frame = (s.frame.read condition).enter := by
  obtain ⟨_, s₁, hcondition, henter⟩ := ends_bind_ok.mp h
  obtain ⟨_, rfl⟩ := ends_modifyFrame.mp henter
  have hframe : s₁.frame = s.frame.read condition :=
    (checkCondition_reads htable condition).frame hcondition
  rw [hframe]
  rfl

/-- The head of a loop leads to a frame that is well under way. -/
theorem loopHead_wf (htable : env.table.Sound) {line : Nat} {var : String} {bounds : Bounds}
    {binding : Binding}
    (hwf : s.frame.Wf env.table)
    (h : Ends (do
      checkBounds env line bounds
      let binding ← bindLoopVar var line
      enterBlock
      enterLoop var
      return binding) s (.ok binding) s') : s'.frame.Wf env.table := by
  simp only [ends_bind_ok] at h
  obtain ⟨_, s₁, hbounds, _, s₂, hbind, _, s₃, henter, _, s₄, hloop, hrest⟩ := h
  obtain ⟨_, rfl⟩ := ends_pure.mp hrest
  obtain ⟨_, rfl⟩ := ends_modifyFrame.mp henter
  obtain ⟨_, rfl⟩ := ends_modifyFrame.mp hloop
  have hframe := (checkBounds_reads htable bounds).frame hbounds
  have hwf₁ : s₁.frame.Wf env.table := by
    rw [hframe]
    exact (hwf.readAll _).1
  have hruns : Runs NoReason (bindLoopVar var line) s₁ _ := bindLoopVar_runs var
  obtain ⟨_, hcase⟩ := hruns.ok hbind
  rcases hcase with ⟨_, _, rfl⟩ | ⟨hfree, _, rfl⟩
  · exact hwf₁.enterLoop var
  · exact (hwf₁.declare .int line hfree).1.enterLoop var

theorem Reached.wf (htable : env.table.Sound) (h : Reached env s) : s.frame.Wf env.table := by
  induction h with
  | start => exact Task.start_wf
  | stmt _ hends ih =>
    obtain ⟨_, hbinds, _⟩ := inferStmt_walks htable _ hends
    exact (hbinds.extends ih).1
  | branch _ hends ih =>
    rw [checkCondition_frame htable hends]
    exact (ih.readAll _).1.enter
  | loop _ hends ih => exact loopHead_wf htable ih hends

end Runs

/-- What the statements of a block do to the names of a body, when they become `found` and hoist
the names in `added`. -/
structure Frame.Disciplined (old new : Frame) (stmts found : List Stmt)
    (added : List (String × Kind)) : Prop where
  depth : new.depth = old.depth
  loopVars : new.loopVars = old.loopVars
  kept : ∀ x kind, old.scope.localKind? x = some kind → new.scope.localKind? x = some kind
  gained : ∀ x kind, old.scope.localKind? x = none ∧ new.scope.localKind? x = some kind ↔
    (x, kind) ∈ declaredIn found ++ added
  /-- Nothing is declared inside blocks. -/
  outside : old.depth ≠ 0 → declaredIn found = []
  hoisted : new.hoisted = old.hoisted ++ added
  once : (new.hoisted.map Prod.fst).Nodup
  /-- Names are hoisted in the order in which they are first assigned. -/
  order : added.map Prod.fst = ((assignedIn stmts).filter (added.map Prod.fst).contains).eraseDups

theorem BindsAll.keeps_discipline {table : CallTable} {fr fr' : Frame} {stmts found : List Stmt}
    {readings : List Reading} (h : BindsAll table fr stmts found fr' readings) (hwf : fr.Wf table) :
    ∃ added, fr.Disciplined fr' stmts found added := by
  obtain ⟨hwf', hextends⟩ := h.extends hwf
  obtain ⟨added, hgains⟩ := h.gains hwf
  refine ⟨added, ?_⟩
  constructor
  · exact hextends.depth
  · exact hextends.loopVars
  · intro x kind hold
    rw [hwf.localKind?_eq_some] at hold
    exact hwf'.localKind?_eq_some.mpr (hextends.own hold)
  · intro x kind
    rw [hwf.localKind?_eq_none, hwf'.localKind?_eq_some, hgains.own]
    constructor
    · rintro ⟨hnone, hown | hmem⟩
      · exact absurd hown (hnone kind)
      · exact hmem
    · intro hmem
      exact ⟨hgains.fresh _ hmem, .inr hmem⟩
  · exact h.declaredIn_eq_nil hwf
  · exact hgains.hoisted
  · exact hwf'.nodup
  · exact hgains.order

/-- Whatever block or statement of a function is accepted where inference comes to it, it
leaves the depth of blocks and the loops around it as they are, keeps all local names, and
adds those that it declares outside blocks and those that it hoists; and the variable that a
loop declares is gone after it. -/
theorem Reached.disciplined {env : Env} (htable : env.table.Built) {s : State}
    (hs : Reached env s) :
    (∀ stmts found s', Ends (inferBlock env stmts) s (.ok found) s' →
      ∃ added, s.frame.Disciplined s'.frame stmts found added) ∧
    ∀ stmt found s', Ends (inferStmt env stmt) s (.ok found) s' →
      (∃ added, s.frame.Disciplined s'.frame [stmt] [found] added) ∧
        ∀ line var bounds kind body, found = .loop line var bounds (.declare kind) body →
          s'.frame.scope.isLocal var = false := by
  have hwf := hs.wf htable.sound
  constructor
  · intro stmts found s' hends
    obtain ⟨_, hbinds, _⟩ := inferBlock_walks htable.sound stmts hends
    exact hbinds.keeps_discipline hwf
  · intro stmt found s' hends
    obtain ⟨_, hbinds, _⟩ := inferStmt_walks htable.sound stmt hends
    refine ⟨(BindsAll.cons hbinds .nil).keeps_discipline hwf, ?_⟩
    rintro line var bounds kind body rfl
    exact hbinds.released

/-- A function in which a loop hoists a name before another one is declared. -/
def hoisting : Task where
  line := 1
  head := ⟨"f", [], none, false⟩
  body := [
    .loop 2 "i" ⟨none, .literal (.int 3),
      1⟩ .unresolved [.assign 3 (.name "y") (.name "i") none .unresolved],
      .assign 4 (.name "x") (.name "y") none .unresolved]

theorem disciplined_hoisting :
    ∃ found s' added, Ends (inferBlock ⟨.builtin, some ⟨"f", false, none⟩⟩ hoisting.body)
        ⟨[], .ofScope (bodyScope [] hoisting []), []⟩ (.ok found) s' ∧
      (Frame.ofScope (bodyScope [] hoisting [])).Disciplined s'.frame hoisting.body found added ∧
      declaredIn found = [("x", .int)] ∧ s'.frame.hoisted = [("y", .int)] := by
  have hends : Ends (inferBlock ⟨.builtin, some ⟨"f", false, none⟩⟩ hoisting.body)
      ⟨[], .ofScope (bodyScope [] hoisting []), []⟩
      (.ok [.loop 2 "i" ⟨none, .literal (.int 3), 1⟩ (.declare .int)
          [.assign 3 (.name "y") (.name "i") none .reassign],
        .assign 4 (.name "x") (.name "y") none (.declare .int)])
      ⟨[], ⟨⟨some [], 1, [("x", ⟨.int, 4⟩), ("y", ⟨.int, 3⟩)], [], []⟩,
        [("y", .int)], 0, [], none⟩, []⟩ := rfl
  have hreached : Reached ⟨.builtin, some ⟨"f", false, none⟩⟩
      ⟨[], .ofScope (bodyScope [] hoisting []), []⟩ :=
    .start [] [] [] hoisting []
  obtain ⟨added, hdisciplined⟩ := (hreached.disciplined .builtin).1 _ _ _ hends
  exact ⟨_, _, added, hends, hdisciplined, rfl, rfl⟩

end Sketchwright.Inference
