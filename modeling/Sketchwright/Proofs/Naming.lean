import Sketchwright.Proofs.Acceptance

/-! The names that the statements of a body bind: those that they assign, those that they count in
and those that they share with the module. What a body may not bind any more stays out of the
statements that follow, and what it has assigned stays its own. -/

namespace Sketchwright

mutual

/-- The names that a statement assigns, in its blocks too. -/
def Stmt.assigned : Stmt → List String
  | .function _ _ _ _ body => assignedIn body
  | .assign _ (.name id) _ _ _ => [id]
  | .conditional _ _ thenBody elseBody => assignedIn thenBody ++ assignedIn elseBody
  | .loop _ _ _ _ body => assignedIn body
  | _ => []

def assignedIn : List Stmt → List String
  | [] => []
  | stmt :: stmts => stmt.assigned ++ assignedIn stmts

end

mutual

/-- The names that a statement declares `global`, in its blocks too. -/
def Stmt.shared : Stmt → List String
  | .function _ _ _ _ body => sharedIn body
  | .conditional _ _ thenBody elseBody => sharedIn thenBody ++ sharedIn elseBody
  | .loop _ _ _ _ body => sharedIn body
  | .global _ names => names
  | _ => []

def sharedIn : List Stmt → List String
  | [] => []
  | stmt :: stmts => stmt.shared ++ sharedIn stmts

end

mutual

theorem Stmt.assigned_bare (stmt : Stmt) : stmt.bare.assigned = stmt.assigned := by
  cases stmt with
  | function | loop => simp only [Stmt.bare, Stmt.assigned, assignedIn_bareAll]
  | conditional => simp only [Stmt.bare, Stmt.assigned, assignedIn_bareAll]
  | assign _ target => cases target <;> rfl
  | _ => rfl

theorem assignedIn_bareAll (stmts : List Stmt) : assignedIn (bareAll stmts) = assignedIn stmts := by
  cases stmts with
  | nil => rfl
  | cons stmt stmts =>
    rw [bareAll, assignedIn, assignedIn, stmt.assigned_bare, assignedIn_bareAll]

end

namespace Inference

section Names

variable {table : CallTable}

/-- A name that is bound and not shared is a name of the body itself. -/
theorem Scope.own_of_bound {s : Scope} {x : String} {kind : Kind} (h : s.bound? x = some kind)
    (hshared : x ∉ s.shared) : s.meaning x = .own kind := by
  have hnot : s.isShared x = false := by simpa [isShared] using hshared
  unfold bound? at h
  split at h
  · next hm => rw [hm, Option.some.inj h]
  · simp [hnot] at h
  · cases h
  · cases h

end Names

namespace Frame

variable (fr : Frame)

@[simp] theorem shared_readAll (names : List String) :
    (fr.readAll names).scope.shared = fr.scope.shared :=
  Scope.readAll_preserves (P := fun t => t.shared = fr.scope.shared) id rfl names

@[simp] theorem shared_read (e : Expr) : (fr.read e).scope.shared = fr.scope.shared :=
  fr.shared_readAll e.vars

@[simp] theorem shared_declare (x : String) (kind : Kind) (line : Nat) :
    (fr.declare x kind line).scope.shared = fr.scope.shared := rfl

@[simp] theorem shared_hoist (x : String) (kind : Kind) (line : Nat) :
    (fr.hoist x kind line).scope.shared = fr.scope.shared := rfl

@[simp] theorem shared_enter : fr.enter.scope.shared = fr.scope.shared := rfl

@[simp] theorem shared_leave : fr.leave.scope.shared = fr.scope.shared := rfl

@[simp] theorem shared_enterLoop (var : String) :
    (fr.enterLoop var).scope.shared = fr.scope.shared := rfl

@[simp] theorem shared_afterLoop (var : String) (binding : Binding) :
    (fr.afterLoop var binding).scope.shared = fr.scope.shared := by
  cases binding <;> rfl

@[simp] theorem shared_share (names : List String) :
    (fr.share names).scope.shared = names.reverse ++ fr.scope.shared := by
  unfold Frame.share
  generalize fr.scope = s
  induction names generalizing s with
  | nil => rfl
  | cons name names ih =>
    rw [List.foldl_cons, ih]
    simp [Scope.share]

end Frame

section Bodies

variable {table : CallTable} {x : String}

mutual

/-- Only the names that a statement declares `global` become shared. -/
theorem Binds.mem_shared {fr fr' : Frame} {stmt stmt' : Stmt} {readings : List Reading}
    (h : Binds table fr stmt stmt' fr' readings) (hx : x ∈ fr'.scope.shared) :
    x ∈ stmt.shared ∨ x ∈ fr.scope.shared := by
  cases h with
  | again | first | hoist | element | expr => exact .inr (by simpa using hx)
  | give | bare | inert => exact .inr (by simpa using hx)
  | conditional hthen helse =>
    rcases helse.mem_shared hx with hx | hx
    · exact .inl (List.mem_append_right _ hx)
    · rcases hthen.mem_shared hx with hx | hx
      · exact .inl (List.mem_append_left _ hx)
      · exact .inr (by simpa using hx)
  | loopAgain _ _ _ hloop | loopFirst _ _ _ hloop =>
    rw [Frame.shared_afterLoop] at hx
    rcases hloop.mem_shared hx with hx | hx
    · exact .inl hx
    · exact .inr (by simpa using hx)
  | share => simpa [Stmt.shared] using hx

theorem BindsAll.mem_shared {fr fr' : Frame} {stmts stmts' : List Stmt} {readings : List Reading}
    (h : BindsAll table fr stmts stmts' fr' readings) (hx : x ∈ fr'.scope.shared) :
    x ∈ sharedIn stmts ∨ x ∈ fr.scope.shared := by
  cases h with
  | nil => exact .inr hx
  | cons hhead htail =>
    rcases htail.mem_shared hx with hx | hx
    · exact .inl (List.mem_append_right _ hx)
    · rcases hhead.mem_shared hx with hx | hx
      · exact .inl (List.mem_append_left _ hx)
      · exact .inr hx

end

mutual

/-- What a statement assigns is no name of the runtime. -/
theorem Binds.unknown {fr fr' : Frame} {stmt stmt' : Stmt} {readings : List Reading}
    (h : Binds table fr stmt stmt' fr' readings) (hx : x ∈ stmt.assigned) :
    table.isKnown x = false := by
  cases h with
  | again hname | first _ hname | hoist _ hname =>
    obtain rfl := List.mem_singleton.mp hx
    exact hname.unknown
  | conditional hthen helse =>
    rcases List.mem_append.mp hx with hx | hx
    · exact hthen.unknown hx
    · exact helse.unknown hx
  | loopAgain _ _ _ hloop | loopFirst _ _ _ hloop => exact hloop.unknown hx
  | element | expr | give | bare | share => cases hx
  | inert hstmt => cases stmt <;> first | cases hx | cases hstmt

theorem BindsAll.unknown {fr fr' : Frame} {stmts stmts' : List Stmt} {readings : List Reading}
    (h : BindsAll table fr stmts stmts' fr' readings) (hx : x ∈ assignedIn stmts) :
    table.isKnown x = false := by
  cases h with
  | nil => cases hx
  | cons hhead htail =>
    rcases List.mem_append.mp hx with hx | hx
    · exact hhead.unknown hx
    · exact htail.unknown hx

end

/-- The body has a list of that name, its own or a global that it has read. -/
inductive Scope.HasList (s : Scope) (x : String) : Prop
  | own {element n} (hm : s.meaning x = .own (.list element n))
  | outer {element n} (hm : s.meaning x = .outer (.list element n)) (hseen : x ∈ s.seen)

namespace Scope.HasList

variable {s : Scope} {name : String}

/-- Neither a first binding nor a further one is of a list. -/
theorem ne_of_free (h : s.HasList x) (hfree : s.Free name) : x ≠ name := by
  rintro rfl
  cases h with
  | own hm => exact hfree.not_own _ hm
  | outer hm hseen =>
    have hunseen := hfree.unseen (by simp [hm])
    simp [isSeen, hseen] at hunseen

theorem ne_of_bound (h : s.HasList x) {kind : Kind} (hbound : s.bound? name = some kind)
    (hkind : kind.isList = false) : x ≠ name := by
  rintro rfl
  unfold bound? at hbound
  cases h with
  | own hm =>
    rw [hm] at hbound
    cases hbound
    cases hkind
  | outer hm =>
    simp only [hm, Option.ite_none_right_eq_some, Option.some.injEq] at hbound
    obtain ⟨_, rfl⟩ := hbound
    cases hkind

end Scope.HasList

/-- The name may not be bound, shared or not: a loop around counts in it, or it is a list. -/
def Frame.Held (fr : Frame) (x : String) : Prop := x ∈ fr.loopVars ∨ fr.scope.HasList x

/-- The name may be bound no more: it is held, or it was read as a global that is not shared. -/
def Frame.Barred (fr : Frame) (x : String) : Prop :=
  fr.Held x ∨ x ∈ fr.scope.seen ∧ x ∉ fr.scope.shared

section Barred

variable {fr fr' : Frame} {name : String}

theorem Frame.Held.keep (h : fr.Held x) (hwf : fr'.Wf table) (hextends : fr.Extends fr') :
    fr'.Held x := by
  rcases h with hvar | hm | ⟨hm, hseen⟩
  · exact .inl (hextends.loopVars ▸ hvar)
  · exact .inr (.own (hextends.own hm))
  · have hseen' := hextends.seen hseen
    obtain ⟨_, hm'⟩ := hwf.seen x hseen'
    have houtward : fr'.scope.outward x = fr.scope.outward x := by
      simp only [Scope.outward, Scope.global?, hextends.globals, hextends.line]
    have hsame : fr'.scope.meaning x = fr.scope.meaning x := by
      rw [Scope.meaning_of_not_own (Scope.not_own_of_outer hm'), houtward,
        Scope.meaning_of_not_own (Scope.not_own_of_outer hm)]
    exact .inr (.outer (hsame.trans hm) hseen')

theorem Frame.Held.enter (h : fr.Held x) : fr.enter.Held x := h

theorem Frame.Held.enterLoop (h : fr.Held x) (var : String) : (fr.enterLoop var).Held x :=
  h.imp_left (List.mem_cons_of_mem _)

namespace Frame.Barred

theorem keep (h : fr.Barred x) (hwf : fr'.Wf table) (hextends : fr.Extends fr')
    (hshared : x ∈ fr'.scope.shared → fr.Held x ∨ x ∈ fr.scope.shared) : fr'.Barred x := by
  by_cases hheld : fr.Held x
  · exact .inl (hheld.keep hwf hextends)
  · obtain ⟨hseen, hnot⟩ := h.resolve_left hheld
    exact .inr ⟨hextends.seen hseen, fun hmem => (hshared hmem).elim hheld hnot⟩

theorem readAll (h : fr.Barred x) (hwf : fr.Wf table) (names : List String) :
    (fr.readAll names).Barred x := by
  obtain ⟨hwf', hextends⟩ := hwf.readAll names
  refine h.keep hwf' hextends fun hmem => ?_
  exact .inr (by simpa using hmem)

theorem enter (h : fr.Barred x) : fr.enter.Barred x := h

theorem enterLoop (h : fr.Barred x) (var : String) : (fr.enterLoop var).Barred x :=
  h.imp_left (·.enterLoop var)

/-- Neither a first binding nor a further one is of a barred name. -/
theorem ne_of_free (h : fr.Barred x) (hwf : fr.Wf table) (hvar : name ∉ fr.loopVars)
    (hfree : fr.scope.Free name) : x ≠ name := by
  rcases h with (h | hlist) | ⟨hseen, _⟩
  · exact fun heq => hvar (heq ▸ h)
  · exact hlist.ne_of_free hfree
  · rintro rfl
    obtain ⟨kind, hm⟩ := hwf.seen x hseen
    have hunseen := hfree.unseen (by simp [hm])
    simp [Scope.isSeen, hseen] at hunseen

theorem ne_of_bound (h : fr.Barred x) (hwf : fr.Wf table) (hvar : name ∉ fr.loopVars) {kind : Kind}
    (hbound : fr.scope.bound? name = some kind) (hkind : kind.isList = false) : x ≠ name := by
  rcases h with (h | hlist) | ⟨hseen, hnot⟩
  · exact fun heq => hvar (heq ▸ h)
  · exact hlist.ne_of_bound hbound hkind
  · rintro rfl
    obtain ⟨outer, hm⟩ := hwf.seen x hseen
    rw [Scope.own_of_bound hbound hnot] at hm
    cases hm

end Frame.Barred

end Barred

mutual

/-- A barred name is bound by none of the statements that follow and stays barred, unless they share
it. Names that are held they may share. -/
theorem Binds.barred {fr fr' : Frame} {stmt stmt' : Stmt} {readings : List Reading}
    (h : Binds table fr stmt stmt' fr' readings) (hwf : fr.Wf table) (hbarred : fr.Barred x)
    (hshared : x ∈ stmt.shared → fr.Held x) :
    x ∉ stmt.assigned ∧ x ∉ stmt.loopVars ∧ fr'.Barred x := by
  have hlast : fr'.Barred x := by
    obtain ⟨hwf', hextends⟩ := h.extends hwf
    exact hbarred.keep hwf' hextends fun hmem => (h.mem_shared hmem).imp_left hshared
  suffices hbinds : x ∉ stmt.assigned ∧ x ∉ stmt.loopVars from ⟨hbinds.1, hbinds.2, hlast⟩
  cases h with
  | again hname _ hbound hkind =>
    have hne := hbarred.ne_of_bound hwf hname.noLoopVar hbound hkind
    exact ⟨by simpa [Stmt.assigned] using hne, List.not_mem_nil⟩
  | @first _ _ _ value _ _ _ hname hfree
  | @hoist _ _ _ value _ _ _ hname hfree =>
    have hne := (hbarred.readAll hwf value.vars).ne_of_free (hwf.readAll _).1 hname.noLoopVar hfree
    exact ⟨by simpa [Stmt.assigned] using hne, List.not_mem_nil⟩
  | @conditional _ _ condition _ _ _ _ _ _ _ _ hthen helse =>
    obtain ⟨hwf₁, hextends₁⟩ := hwf.readAll condition.vars
    have hheld : fr.Held x → (fr.read condition).enter.Held x := fun h =>
      (h.keep hwf₁ hextends₁).enter
    obtain ⟨hassigned₁, hloops₁, hbarred₁⟩ :=
      hthen.barred hwf₁.enter (hbarred.readAll hwf condition.vars).enter fun hmem =>
        hheld (hshared (List.mem_append_left _ hmem))
    obtain ⟨hwf₂, hextends₂⟩ := hthen.extends hwf₁.enter
    obtain ⟨hassigned₂, hloops₂, _⟩ := helse.barred hwf₂ hbarred₁ fun hmem =>
      (hheld (hshared (List.mem_append_right _ hmem))).keep hwf₂ hextends₂
    simp only [Stmt.assigned, Stmt.loopVars, List.mem_append, not_or]
    exact ⟨⟨hassigned₁, hassigned₂⟩, hloops₁, hloops₂⟩
  | @loopAgain _ _ var bounds _ _ _ _ _ _ hvar hbound hloop =>
    obtain ⟨hwf₁, hextends₁⟩ := hwf.readAll (Expr.varsAll bounds.exprs)
    have hbarred₁ := hbarred.readAll hwf (Expr.varsAll bounds.exprs)
    have hne := hbarred.ne_of_bound hwf hvar hbound rfl
    obtain ⟨hassigned, hloops, _⟩ :=
      hloop.barred (hwf₁.enterLoop var) (hbarred₁.enterLoop var) fun hmem =>
        ((hshared hmem).keep hwf₁ hextends₁).enterLoop var
    exact ⟨hassigned, List.not_mem_cons_of_ne_of_not_mem hne hloops⟩
  | @loopFirst _ line var bounds _ _ _ _ _ _ hvar hfree hloop =>
    obtain ⟨hwf₁, hextends₁⟩ := hwf.readAll (Expr.varsAll bounds.exprs)
    have hbarred₁ := hbarred.readAll hwf (Expr.varsAll bounds.exprs)
    have hne := hbarred₁.ne_of_free hwf₁ hvar hfree
    obtain ⟨hwf₂, hextends₂⟩ := hwf₁.declare .int line hfree
    have hbarred₂ := hbarred₁.keep hwf₂ hextends₂ .inr
    obtain ⟨hassigned, hloops, _⟩ :=
      hloop.barred (hwf₂.enterLoop var) (hbarred₂.enterLoop var) fun hmem =>
        (((hshared hmem).keep hwf₁ hextends₁).keep hwf₂ hextends₂).enterLoop var
    exact ⟨hassigned, List.not_mem_cons_of_ne_of_not_mem hne hloops⟩
  | element | expr | give | bare | share => exact ⟨List.not_mem_nil, List.not_mem_nil⟩
  | inert hstmt => cases stmt <;> first | exact ⟨List.not_mem_nil, List.not_mem_nil⟩ | cases hstmt

theorem BindsAll.barred {fr fr' : Frame} {stmts stmts' : List Stmt} {readings : List Reading}
    (h : BindsAll table fr stmts stmts' fr' readings) (hwf : fr.Wf table) (hbarred : fr.Barred x)
    (hshared : x ∈ sharedIn stmts → fr.Held x) :
    x ∉ assignedIn stmts ∧ x ∉ loopVarsIn stmts ∧ fr'.Barred x := by
  cases h with
  | nil => exact ⟨List.not_mem_nil, List.not_mem_nil, hbarred⟩
  | cons hhead htail =>
    obtain ⟨hassigned₁, hloops₁, hbarred₁⟩ := hhead.barred hwf hbarred fun hmem =>
      hshared (List.mem_append_left _ hmem)
    obtain ⟨hwf₁, hextends⟩ := hhead.extends hwf
    obtain ⟨hassigned₂, hloops₂, hbarred₂⟩ := htail.barred hwf₁ hbarred₁ fun hmem =>
      (hshared (List.mem_append_right _ hmem)).keep hwf₁ hextends
    simp only [assignedIn, loopVarsIn, List.mem_append, not_or]
    exact ⟨⟨hassigned₁, hassigned₂⟩, ⟨hloops₁, hloops₂⟩, hbarred₂⟩

end

mutual

/-- What a statement assigns and does not share is a name of the body itself from then on. -/
theorem Binds.own_of_assigned {fr fr' : Frame} {stmt stmt' : Stmt} {readings : List Reading}
    (h : Binds table fr stmt stmt' fr' readings) (hwf : fr.Wf table)
    (hnot : x ∉ fr.scope.shared) (hshared : x ∉ stmt.shared) (hx : x ∈ stmt.assigned) :
    ∃ kind, fr'.scope.meaning x = .own kind := by
  cases h with
  | @again _ _ _ value _ _ kind _ _ hbound =>
    obtain rfl := List.mem_singleton.mp hx
    exact ⟨kind, (hwf.readAll value.vars).2.own (Scope.own_of_bound hbound hnot)⟩
  | @first _ line _ value _ _ kind _ hfree
  | @hoist _ line _ value _ _ kind _ hfree =>
    obtain rfl := List.mem_singleton.mp hx
    exact ⟨kind, ((hwf.readAll value.vars).1.meaning_declare kind line hfree x).trans (if_pos rfl)⟩
  | @conditional _ _ condition _ _ _ _ _ _ _ _ hthen helse =>
    simp only [Stmt.shared, List.mem_append, not_or] at hshared
    have hwf₁ := (hwf.readAll condition.vars).1.enter
    have hwf₂ := (hthen.extends hwf₁).1
    have hnot₁ : x ∉ (fr.read condition).enter.scope.shared := by simpa using hnot
    rcases List.mem_append.mp hx with hx | hx
    · obtain ⟨kind, hkind⟩ := hthen.own_of_assigned hwf₁ hnot₁ hshared.1 hx
      exact ⟨kind, (helse.extends hwf₂).2.own hkind⟩
    · have hnot₂ := fun hmem => (hthen.mem_shared hmem).elim hshared.1 hnot₁
      exact helse.own_of_assigned hwf₂ hnot₂ hshared.2 hx
  | @loopAgain _ _ var bounds _ _ _ _ _ _ _ _ hloop =>
    have hwf₁ := (hwf.readAll (Expr.varsAll bounds.exprs)).1
    exact hloop.own_of_assigned (hwf₁.enterLoop var) (by simpa using hnot) hshared hx
  | @loopFirst _ line var bounds _ _ _ last _ _ _ hfree hloop =>
    have hwf₁ := (hwf.readAll (Expr.varsAll bounds.exprs)).1
    have hwf₂ := (hwf₁.declare .int line hfree).1.enterLoop var
    obtain ⟨hwf₃, hextends⟩ := hloop.extends hwf₂
    -- the variable of the loop is not assigned in its body
    have hne : x ≠ var := by
      rintro rfl
      exact (hloop.barred hwf₂ (.inl (.inl List.mem_cons_self)) fun _ =>
        .inl List.mem_cons_self).1 hx
    obtain ⟨kind, hkind⟩ := hloop.own_of_assigned hwf₂ (by simpa using hnot) hshared hx
    obtain ⟨_, _, hm⟩ := hwf₁.afterDeclaringLoop hfree hwf₃ hextends
    exact ⟨kind, (hm x).trans ((if_neg hne).trans hkind)⟩
  | element | expr | give | bare | share => cases hx
  | inert hstmt => cases stmt <;> first | cases hx | cases hstmt

theorem BindsAll.own_of_assigned {fr fr' : Frame} {stmts stmts' : List Stmt}
    {readings : List Reading} (h : BindsAll table fr stmts stmts' fr' readings) (hwf : fr.Wf table)
    (hnot : x ∉ fr.scope.shared) (hshared : x ∉ sharedIn stmts) (hx : x ∈ assignedIn stmts) :
    ∃ kind, fr'.scope.meaning x = .own kind := by
  cases h with
  | nil => cases hx
  | cons hhead htail =>
    simp only [sharedIn, List.mem_append, not_or] at hshared
    have hwf₁ := (hhead.extends hwf).1
    rcases List.mem_append.mp hx with hx | hx
    · obtain ⟨kind, hkind⟩ := hhead.own_of_assigned hwf hnot hshared.1 hx
      exact ⟨kind, (htail.extends hwf₁).2.own hkind⟩
    · have hnot₁ := fun hmem => (hhead.mem_shared hmem).elim hshared.1 hnot
      exact htail.own_of_assigned hwf₁ hnot₁ hshared.2 hx

end

mutual

/-- What is a name of the body itself after a statement was one before it, or the
statement assigns it. -/
theorem Binds.assigned_of_own {fr fr' : Frame} {stmt stmt' : Stmt} {readings : List Reading}
    {kind : Kind} (h : Binds table fr stmt stmt' fr' readings) (hwf : fr.Wf table)
    (hown : fr'.scope.meaning x = .own kind) :
    x ∈ stmt.assigned ∨ ∃ kind, fr.scope.meaning x = .own kind := by
  have hread : ∀ {names : List String} {k}, (fr.readAll names).scope.meaning x = .own k →
      ∃ kind, fr.scope.meaning x = .own kind := by
    intro names k hk
    exact ⟨k, by simpa [Frame.readAll] using hk⟩
  cases h with
  | again | expr | give => exact .inr (hread hown)
  | @first _ line name value _ _ target _ hfree
  | @hoist _ line name value _ _ target _ hfree =>
    by_cases hx : x = name
    · exact .inl (List.mem_singleton.mpr hx)
    · have hm := (hwf.readAll value.vars).1.meaning_declare target line hfree x
      exact .inr (hread ((hm.trans (if_neg hx)).symm.trans hown))
  | @element _ _ list position value =>
    exact .inr ⟨kind, by simpa [Frame.read, Frame.readAll] using hown⟩
  | @conditional _ _ condition _ _ _ _ _ _ _ _ hthen helse =>
    have hwf₁ := (hwf.readAll condition.vars).1.enter
    rcases helse.assigned_of_own (hthen.extends hwf₁).1 hown with hx | ⟨k, hk⟩
    · exact .inl (List.mem_append_right _ hx)
    · rcases hthen.assigned_of_own hwf₁ hk with hx | ⟨k, hk⟩
      · exact .inl (List.mem_append_left _ hx)
      · exact .inr (hread hk)
  | @loopAgain _ _ var bounds _ _ _ _ _ _ _ _ hloop =>
    have hwf₁ := (hwf.readAll (Expr.varsAll bounds.exprs)).1.enterLoop var
    rcases hloop.assigned_of_own hwf₁ hown with hx | ⟨k, hk⟩
    · exact .inl hx
    · exact .inr (hread hk)
  | @loopFirst _ line var bounds _ _ _ last _ _ _ hfree hloop =>
    have hwf₁ := (hwf.readAll (Expr.varsAll bounds.exprs)).1
    have hwf₂ := (hwf₁.declare .int line hfree).1.enterLoop var
    obtain ⟨hwf₃, hextends⟩ := hloop.extends hwf₂
    obtain ⟨_, _, hm⟩ := hwf₁.afterDeclaringLoop hfree hwf₃ hextends
    by_cases hx : x = var
    · rw [hm, if_pos hx, ← hx] at hown
      exact .inr (hread hown)
    · rw [hm, if_neg hx] at hown
      rcases hloop.assigned_of_own hwf₂ hown with hx | ⟨k, hk⟩
      · exact .inl hx
      · have hdeclared := hwf₁.meaning_declare .int line hfree x
        exact .inr (hread ((hdeclared.trans (if_neg hx)).symm.trans hk))
  | share hnames =>
    rw [Frame.meaning_share fun name hname => (hnames name hname).1] at hown
    exact .inr ⟨kind, hown⟩
  | bare | inert => exact .inr ⟨kind, hown⟩

theorem BindsAll.assigned_of_own {fr fr' : Frame} {stmts stmts' : List Stmt}
    {readings : List Reading} {kind : Kind} (h : BindsAll table fr stmts stmts' fr' readings)
    (hwf : fr.Wf table) (hown : fr'.scope.meaning x = .own kind) :
    x ∈ assignedIn stmts ∨ ∃ kind, fr.scope.meaning x = .own kind := by
  cases h with
  | nil => exact .inr ⟨kind, hown⟩
  | cons hhead htail =>
    rcases htail.assigned_of_own (hhead.extends hwf).1 hown with hx | ⟨k, hk⟩
    · exact .inl (List.mem_append_right _ hx)
    · exact (hhead.assigned_of_own hwf hk).imp_left (List.mem_append_left _)

end

mutual

/-- The globals are the same wherever a statement reads. -/
theorem Binds.same_globals {fr fr' : Frame} {stmt stmt' : Stmt} {readings : List Reading}
    (h : Binds table fr stmt stmt' fr' readings) (hwf : fr.Wf table) :
    ∀ reading ∈ readings, reading.scope.globals = fr.scope.globals := by
  cases h with
  | @again _ _ _ value =>
    have hread := (hwf.readAll value.vars).2.globals
    exact List.forall_mem_cons.mpr ⟨rfl, List.forall_mem_singleton.mpr hread⟩
  | @first _ line _ value _ _ kind _ hfree
  | @hoist _ line _ value _ _ kind _ hfree =>
    obtain ⟨hwf₁, hextends⟩ := hwf.readAll value.vars
    have hlast := (hwf₁.declare kind line hfree).2.globals.trans hextends.globals
    exact List.forall_mem_cons.mpr ⟨rfl, List.forall_mem_singleton.mpr hlast⟩
  | @element _ _ list position =>
    have hread := (hwf.readAll (Expr.index list position).vars).2.globals
    exact List.forall_mem_cons.mpr ⟨rfl, List.forall_mem_singleton.mpr hread⟩
  | @conditional _ _ condition _ _ _ _ _ _ _ _ hthen helse =>
    obtain ⟨hwf₁, hextends₁⟩ := hwf.readAll condition.vars
    obtain ⟨hwf₂, hextends₂⟩ := hthen.extends hwf₁.enter
    refine List.forall_mem_cons.mpr
      ⟨rfl, List.forall_mem_append.mpr ⟨fun reading hmem => ?_, fun reading hmem => ?_⟩⟩
    · exact (hthen.same_globals hwf₁.enter reading hmem).trans hextends₁.globals
    · exact (helse.same_globals hwf₂ reading hmem).trans (hextends₂.globals.trans hextends₁.globals)
  | @loopAgain _ _ var bounds _ _ _ _ _ _ _ _ hloop =>
    obtain ⟨hwf₁, hextends⟩ := hwf.readAll (Expr.varsAll bounds.exprs)
    refine List.forall_mem_append.mpr ⟨List.forall_mem_map.mpr fun _ _ => rfl, ?_⟩
    refine List.forall_mem_cons.mpr ⟨hextends.globals, fun reading hmem => ?_⟩
    exact (hloop.same_globals (hwf₁.enterLoop var) reading hmem).trans hextends.globals
  | @loopFirst _ line var bounds _ _ _ _ _ _ _ hfree hloop =>
    obtain ⟨hwf₁, hextends₁⟩ := hwf.readAll (Expr.varsAll bounds.exprs)
    obtain ⟨hwf₂, hextends₂⟩ := hwf₁.declare .int line hfree
    have hglobals := hextends₂.globals.trans hextends₁.globals
    refine List.forall_mem_append.mpr ⟨List.forall_mem_map.mpr fun _ _ => rfl, ?_⟩
    refine List.forall_mem_cons.mpr ⟨hglobals, fun reading hmem => ?_⟩
    exact (hloop.same_globals (hwf₂.enterLoop var) reading hmem).trans hglobals
  | expr | give => exact List.forall_mem_singleton.mpr rfl
  | bare | share | inert => exact List.forall_mem_nil _

theorem BindsAll.same_globals {fr fr' : Frame} {stmts stmts' : List Stmt} {readings : List Reading}
    (h : BindsAll table fr stmts stmts' fr' readings) (hwf : fr.Wf table) :
    ∀ reading ∈ readings, reading.scope.globals = fr.scope.globals := by
  cases h with
  | nil => exact List.forall_mem_nil _
  | cons hhead htail =>
    obtain ⟨hwf₁, hextends⟩ := hhead.extends hwf
    refine List.forall_mem_append.mpr ⟨hhead.same_globals hwf, fun reading hmem => ?_⟩
    exact (htail.same_globals hwf₁ reading hmem).trans hextends.globals

end

mutual

/-- Every expression of a statement is read. -/
theorem Binds.covers {fr fr' : Frame} {stmt stmt' : Stmt} {readings : List Reading}
    (h : Binds table fr stmt stmt' fr' readings) :
    ∀ e ∈ stmt.exprs, ∃ reading ∈ readings, reading.expr = e := by
  cases h with
  | again | first | hoist => exact List.forall_mem_singleton.mpr ⟨_, List.mem_cons_self, rfl⟩
  | element =>
    refine List.forall_mem_cons.mpr ⟨⟨_, List.mem_cons_self, rfl⟩, ?_⟩
    exact List.forall_mem_singleton.mpr ⟨_, List.mem_cons_of_mem _ List.mem_cons_self, rfl⟩
  | conditional hthen helse =>
    refine List.forall_mem_cons.mpr ⟨⟨_, List.mem_cons_self, rfl⟩, ?_⟩
    refine List.forall_mem_append.mpr ⟨fun e he => ?_, fun e he => ?_⟩
    · obtain ⟨reading, hmem, hexpr⟩ := hthen.covers e he
      exact ⟨reading, List.mem_cons_of_mem _ (List.mem_append_left _ hmem), hexpr⟩
    · obtain ⟨reading, hmem, hexpr⟩ := helse.covers e he
      exact ⟨reading, List.mem_cons_of_mem _ (List.mem_append_right _ hmem), hexpr⟩
  | loopAgain _ _ _ hloop | loopFirst _ _ _ hloop =>
    refine List.forall_mem_append.mpr ⟨fun e he => ?_, fun e he => ?_⟩
    · exact ⟨_, List.mem_append_left _ (List.mem_map_of_mem he), rfl⟩
    · obtain ⟨reading, hmem, hexpr⟩ := hloop.covers e he
      exact ⟨reading, List.mem_append_right _ (List.mem_cons_of_mem _ hmem), hexpr⟩
  | expr | give => exact List.forall_mem_singleton.mpr ⟨_, List.mem_cons_self, rfl⟩
  | bare | share => exact List.forall_mem_nil _
  | inert hstmt => cases stmt <;> first | exact List.forall_mem_nil _ | cases hstmt

theorem BindsAll.covers {fr fr' : Frame} {stmts stmts' : List Stmt} {readings : List Reading}
    (h : BindsAll table fr stmts stmts' fr' readings) :
    ∀ e ∈ exprsIn stmts, ∃ reading ∈ readings, reading.expr = e := by
  cases h with
  | nil => exact List.forall_mem_nil _
  | cons hhead htail =>
    refine List.forall_mem_append.mpr ⟨fun e he => ?_, fun e he => ?_⟩
    · obtain ⟨reading, hmem, hexpr⟩ := hhead.covers e he
      exact ⟨reading, List.mem_append_left _ hmem, hexpr⟩
    · obtain ⟨reading, hmem, hexpr⟩ := htail.covers e he
      exact ⟨reading, List.mem_append_right _ hmem, hexpr⟩

end

end Bodies

end Inference

end Sketchwright
