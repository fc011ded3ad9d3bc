import Sketchwright.Proofs.Naming

/-! Local names. A name that a function binds and does not declare `global` is its own: no
occurrence of it in the function means the global of that name, whatever the order of reads and
bindings. The exception is a name in which loops count and that is bound in no other way: its
binding ends with each loop, so that what is read of it after a loop is the global again. -/

namespace Sketchwright

/-- The variables that a statement reads, those in its blocks apart. -/
def Stmt.reads : Stmt → List String
  | .assign _ (.name _) value _ _ => value.vars
  | .assign _ (.element list position) value _ _ => (Expr.index list position).vars ++ value.vars
  | .conditional _ condition _ _ => condition.vars
  | .loop _ _ bounds _ _ => Expr.varsAll bounds.exprs
  | .expr _ value => value.vars
  | .give _ (some value) => value.vars
  | _ => []

mutual

/-- The variables that a statement reads outside the loops that count in them, but after one of
these loops in the text: those of the loops above it are `ended`. -/
def Stmt.strays (ended : List String) : Stmt → List String
  | .conditional line condition thenBody elseBody =>
    (Stmt.conditional line condition thenBody elseBody).reads.filter (ended.contains ·) ++
      (straysIn ended thenBody ++ straysIn (ended ++ loopVarsIn thenBody) elseBody)
  | .loop line var bounds binding body =>
    (Stmt.loop line var bounds binding body).reads.filter (ended.contains ·) ++
      (straysIn ended body).filter (· ≠ var)
  | stmt => stmt.reads.filter (ended.contains ·)

def straysIn (ended : List String) : List Stmt → List String
  | [] => []
  | stmt :: stmts => stmt.strays ended ++ straysIn (ended ++ stmt.loopVars) stmts

end

theorem Stmt.mem_strays {stmt : Stmt} {ended : List String} {x : String} (hx : x ∈ stmt.reads)
    (hended : x ∈ ended) : x ∈ stmt.strays ended := by
  have hmem : x ∈ stmt.reads.filter (ended.contains ·) :=
    List.mem_filter.mpr ⟨hx, by simpa using hended⟩
  cases stmt with
  | conditional | loop => exact List.mem_append_left _ hmem
  | _ => exact hmem

namespace Inference

section Bodies

variable {table : CallTable} {x : String}

mutual

/-- Where a name is bound in the body itself, a statement sees it so throughout. -/
theorem Binds.own_readings {fr fr' : Frame} {stmt stmt' : Stmt} {readings : List Reading}
    {kind : Kind} (h : Binds table fr stmt stmt' fr' readings) (hwf : fr.Wf table)
    (hown : fr.scope.meaning x = .own kind) :
    ∀ reading ∈ readings, reading.scope.meaning x = .own kind := by
  cases h with
  | @again _ _ _ value =>
    have hread := (hwf.readAll value.vars).2.own hown
    exact List.forall_mem_cons.mpr ⟨hown, List.forall_mem_singleton.mpr hread⟩
  | @first _ line _ value _ _ kind _ hfree =>
    obtain ⟨hwf₁, hextends⟩ := hwf.readAll value.vars
    have hlast := (hwf₁.declare kind line hfree).2.own (hextends.own hown)
    exact List.forall_mem_cons.mpr ⟨hown, List.forall_mem_singleton.mpr hlast⟩
  | @hoist _ line _ value _ _ kind hname hfree =>
    obtain ⟨hwf₁, hextends⟩ := hwf.readAll value.vars
    have hlast := (hwf₁.hoist kind line hfree hname.unknown).2.own (hextends.own hown)
    exact List.forall_mem_cons.mpr ⟨hown, List.forall_mem_singleton.mpr hlast⟩
  | @element _ _ list position =>
    have hread := (hwf.readAll (Expr.index list position).vars).2.own hown
    exact List.forall_mem_cons.mpr ⟨hown, List.forall_mem_singleton.mpr hread⟩
  | @conditional _ _ condition _ _ _ _ _ _ _ _ hthen helse =>
    obtain ⟨hwf₁, hextends₁⟩ := hwf.readAll condition.vars
    obtain ⟨hwf₂, hextends₂⟩ := hthen.extends hwf₁.enter
    have hown₁ := hextends₁.own hown
    refine List.forall_mem_cons.mpr ⟨hown, List.forall_mem_append.mpr ⟨?_, ?_⟩⟩
    · exact hthen.own_readings hwf₁.enter hown₁
    · exact helse.own_readings hwf₂ (hextends₂.own hown₁)
  | @loopAgain _ _ var bounds _ _ _ _ _ _ _ _ hloop =>
    obtain ⟨hwf₁, hextends⟩ := hwf.readAll (Expr.varsAll bounds.exprs)
    have hown₁ := hextends.own hown
    refine List.forall_mem_append.mpr ⟨?_, ?_⟩
    · exact List.forall_mem_map.mpr fun _ _ => hown
    · exact List.forall_mem_cons.mpr ⟨hown₁, hloop.own_readings (hwf₁.enterLoop var) hown₁⟩
  | @loopFirst _ line var bounds _ _ _ _ _ _ _ hfree hloop =>
    obtain ⟨hwf₁, hextends₁⟩ := hwf.readAll (Expr.varsAll bounds.exprs)
    obtain ⟨hwf₂, hextends₂⟩ := hwf₁.declare .int line hfree
    have hown₂ := hextends₂.own (hextends₁.own hown)
    refine List.forall_mem_append.mpr ⟨?_, ?_⟩
    · exact List.forall_mem_map.mpr fun _ _ => hown
    · exact List.forall_mem_cons.mpr ⟨hown₂, hloop.own_readings (hwf₂.enterLoop var) hown₂⟩
  | expr | give => exact List.forall_mem_singleton.mpr hown
  | bare | share | inert => exact List.forall_mem_nil _

theorem BindsAll.own_readings {fr fr' : Frame} {stmts stmts' : List Stmt} {readings : List Reading}
    {kind : Kind} (h : BindsAll table fr stmts stmts' fr' readings) (hwf : fr.Wf table)
    (hown : fr.scope.meaning x = .own kind) :
    ∀ reading ∈ readings, reading.scope.meaning x = .own kind := by
  cases h with
  | nil => exact List.forall_mem_nil _
  | cons hhead htail =>
    obtain ⟨hwf₁, hextends⟩ := hhead.extends hwf
    exact List.forall_mem_append.mpr
      ⟨hhead.own_readings hwf hown, htail.own_readings hwf₁ (hextends.own hown)⟩

end

theorem Frame.seen_afterLoop (fr : Frame) (var : String) (binding : Binding) :
    (fr.afterLoop var binding).scope.seen = fr.scope.seen := by
  cases binding <;> rfl

/-- Some reading of the name means the global. -/
def Leaks (x : String) (readings : List Reading) : Prop :=
  ∃ reading ∈ readings, x ∈ reading.expr.vars ∧ ∃ kind, reading.scope.meaning x = .outer kind

theorem leaks_append {r₁ r₂ : List Reading} : Leaks x (r₁ ++ r₂) ↔ Leaks x r₁ ∨ Leaks x r₂ := by
  simp only [Leaks, List.mem_append, or_and_right, exists_or]

theorem leaks_cons {reading : Reading} {readings : List Reading} :
    Leaks x (reading :: readings) ↔
      (x ∈ reading.expr.vars ∧ ∃ kind, reading.scope.meaning x = .outer kind) ∨
        Leaks x readings := by
  simp only [Leaks, List.mem_cons, or_and_right, exists_or, exists_eq_left]

theorem leaks_map {scope : Scope} {es : List Expr} : Leaks x (es.map (⟨scope, ·⟩)) ↔
    x ∈ Expr.varsAll es ∧ ∃ kind, scope.meaning x = .outer kind := by
  constructor
  · rintro ⟨reading, hmem, hx, houter⟩
    obtain ⟨e, he, rfl⟩ := List.mem_map.mp hmem
    exact ⟨Expr.mem_varsAll.mpr ⟨e, he, hx⟩, houter⟩
  · rintro ⟨hx, houter⟩
    obtain ⟨e, he, hx⟩ := Expr.mem_varsAll.mp hx
    exact ⟨_, List.mem_map_of_mem he, hx, houter⟩

theorem not_leaks_nil : ¬Leaks x [] := by
  rintro ⟨_, hmem, _⟩
  cases hmem

theorem not_leaks_of_own {readings : List Reading} {kind : Kind}
    (h : ∀ reading ∈ readings, reading.scope.meaning x = .own kind) : ¬Leaks x readings := by
  rintro ⟨reading, hmem, _, outer, hm⟩
  rw [h reading hmem] at hm
  cases hm

/-- Of the readings around a binding of a name, the one of what is bound
does not mean the global. -/
theorem Leaks.of_binding {scope : Scope} {name : String} {readings : List Reading}
    (hown : x = name → ∃ kind, scope.meaning x = .own kind)
    (h : Leaks x (⟨scope, .name name⟩ :: readings)) : Leaks x readings := by
  rcases leaks_cons.mp h with ⟨hx, outer, hm⟩ | h
  · obtain ⟨kind, hkind⟩ := hown (List.mem_singleton.mp hx)
    rw [hkind] at hm
    cases hm
  · exact h

/-- What is known of a statement, or a block, of which a reading means the global: it marks the name
as read, does not assign it, and if the loops in the name are all before the reading or in it, the
reading is one outside them. -/
structure Stray (x : String) (fr' : Frame) (assigned loops : List String)
    (strays : List String → List String) : Prop where
  seen : x ∈ fr'.scope.seen
  unassigned : x ∉ assigned
  mem : ∀ {ended}, x ∈ ended ∨ x ∈ loops → x ∈ strays ended

/-- A statement that reads the global itself and binds no name in which loops count. -/
theorem Stray.of_reads {fr' : Frame} {stmt : Stmt} (hx : x ∈ stmt.reads)
    (hseen : x ∈ fr'.scope.seen) (hassigned : x ∉ stmt.assigned) (hloops : x ∉ stmt.loopVars) :
    Stray x fr' stmt.assigned stmt.loopVars stmt.strays :=
  ⟨hseen, hassigned, fun hended => stmt.mem_strays hx (hended.resolve_right hloops)⟩

/-- A loop in another name. -/
theorem Stray.loop {fr' : Frame} {line : Nat} {var : String} {bounds : Bounds} {b binding : Binding}
    {body : List Stmt} (hne : x ≠ var)
    (h : Stray x fr' (assignedIn body) (loopVarsIn body) (straysIn · body)) :
    Stray x (fr'.afterLoop var binding) (Stmt.loop line var bounds b body).assigned
      (Stmt.loop line var bounds b body).loopVars (Stmt.loop line var bounds b body).strays := by
  refine ⟨by rw [Frame.seen_afterLoop]; exact h.seen, h.unassigned, fun hended => ?_⟩
  have hbody := h.mem (hended.imp_right fun hmem => (List.mem_cons.mp hmem).resolve_left hne)
  exact List.mem_append_right _ (List.mem_filter.mpr ⟨hbody, by simpa using hne⟩)

/-- The reading stands in the first of two parts, and the second binds the name in no way. -/
theorem Stray.before {fr₁ fr₂ : Frame} {assigned₁ assigned₂ loops₁ loops₂ : List String}
    {strays₁ : List String → List String} (h : Stray x fr₁ assigned₁ loops₁ strays₁)
    (strays₂ : List String → List String) (hseen : fr₁.scope.seen ⊆ fr₂.scope.seen)
    (hassigned : x ∉ assigned₂) (hloops : x ∉ loops₂) :
    Stray x fr₂ (assigned₁ ++ assigned₂) (loops₁ ++ loops₂) fun ended =>
      strays₁ ended ++ strays₂ (ended ++ loops₁) := by
  refine ⟨hseen h.seen, ?_, fun hended => List.mem_append_left _ (h.mem (hended.imp_right ?_))⟩
  · exact fun hmem => (List.mem_append.mp hmem).elim h.unassigned hassigned
  · exact fun hmem => (List.mem_append.mp hmem).resolve_right hloops

/-- The reading stands in the second of two parts, and the first does not assign the name. -/
theorem Stray.after {fr : Frame} {assigned₁ assigned₂ loops₁ loops₂ : List String}
    {strays₁ strays₂ : List String → List String} (h : Stray x fr assigned₂ loops₂ strays₂)
    (hassigned : x ∉ assigned₁) :
    Stray x fr (assigned₁ ++ assigned₂) (loops₁ ++ loops₂) fun ended =>
      strays₁ ended ++ strays₂ (ended ++ loops₁) := by
  refine ⟨h.seen, ?_, fun hended => List.mem_append_right _ (h.mem ?_)⟩
  · exact fun hmem => (List.mem_append.mp hmem).elim hassigned h.unassigned
  · simpa only [List.mem_append, or_assoc] using hended

/-- A conditional whose blocks hold the reading. -/
theorem Stray.conditional {fr : Frame} {line : Nat} {condition : Expr}
    {thenBody elseBody : List Stmt}
    (h : Stray x fr (assignedIn thenBody ++ assignedIn elseBody)
      (loopVarsIn thenBody ++ loopVarsIn elseBody)
      fun ended => straysIn ended thenBody ++ straysIn (ended ++ loopVarsIn thenBody) elseBody) :
    Stray x fr.leave (Stmt.conditional line condition thenBody elseBody).assigned
      (Stmt.conditional line condition thenBody elseBody).loopVars
      (Stmt.conditional line condition thenBody elseBody).strays :=
  ⟨h.seen, h.unassigned, fun hended => List.mem_append_right _ (h.mem hended)⟩

/-- A loop whose bounds are the reading: its body does not bind the name. -/
theorem Stray.bounds {fr fr' : Frame} {line : Nat} {var : String} {bounds : Bounds}
    {b binding : Binding} {body body' : List Stmt} {readings : List Reading}
    (hloop : BindsAll table (fr.enterLoop var) body body' fr' readings) (hwf : fr.Wf table)
    (hbarred : fr.Barred x) (hseen : x ∈ fr.scope.seen) (hshared : x ∉ sharedIn body)
    (hx : x ∈ Expr.varsAll bounds.exprs) (hne : x ≠ var) :
    Stray x (fr'.afterLoop var binding) (Stmt.loop line var bounds b body).assigned
      (Stmt.loop line var bounds b body).loopVars (Stmt.loop line var bounds b body).strays := by
  obtain ⟨hassigned, hloops, _⟩ := hloop.barred (hwf.enterLoop var) (hbarred.enterLoop var)
    (absurd · hshared)
  refine .of_reads hx ?_ hassigned (List.not_mem_cons_of_ne_of_not_mem hne hloops)
  rw [Frame.seen_afterLoop]
  exact (hloop.extends (hwf.enterLoop var)).2.seen hseen

mutual

/-- A statement in which an unshared name means the global does not assign it. Where loops count in
the name, the reading is outside them, and one of them is before it. -/
theorem Binds.stray {fr fr' : Frame} {stmt stmt' : Stmt} {readings : List Reading}
    (h : Binds table fr stmt stmt' fr' readings) (hwf : fr.Wf table) (hnot : x ∉ fr.scope.shared)
    (hshared : x ∉ stmt.shared) (hleaks : Leaks x readings) :
    Stray x fr' stmt.assigned stmt.loopVars stmt.strays := by
  have hfar : ∀ {kind}, fr.scope.meaning x ≠ .own kind := fun hown =>
    not_leaks_of_own (h.own_readings hwf hown) hleaks
  -- the readings of the statement itself leave the name barred in its blocks
  have hread : ∀ {names : List String}, x ∈ names → (∃ kind, fr.scope.meaning x = .outer kind) →
      x ∈ (fr.readAll names).scope.seen ∧ (fr.readAll names).Barred x := by
    rintro names hx ⟨kind, hm⟩
    have hseen := Frame.seen_readAll hx hm
    exact ⟨hseen, .inr ⟨hseen, by simpa using hnot⟩⟩
  cases h with
  | @again _ _ name value _ _ _ hname hbody hbound =>
    have hne : x ≠ name := by
      rintro rfl
      exact hfar (Scope.own_of_bound hbound hnot)
    rcases leaks_cons.mp hleaks with ⟨hx, houter⟩ | hleaks
    · obtain ⟨hseen, _⟩ := hread hx houter
      exact .of_reads hx hseen (by simpa [Stmt.assigned] using hne) List.not_mem_nil
    · exact absurd (hleaks.of_binding fun heq => absurd heq hne) not_leaks_nil
  | @first _ line name value _ _ kind hname hfree
  | @hoist _ line name value _ _ kind hname hfree =>
    have hwf₁ := (hwf.readAll value.vars).1
    rcases leaks_cons.mp hleaks with ⟨hx, houter⟩ | hleaks
    · obtain ⟨hseen, hbarred⟩ := hread hx houter
      have hne := hbarred.ne_of_free hwf₁ hname.noLoopVar hfree
      exact .of_reads hx hseen (by simpa [Stmt.assigned] using hne) List.not_mem_nil
    · refine absurd (hleaks.of_binding fun heq => ⟨kind, ?_⟩) not_leaks_nil
      exact (hwf₁.meaning_declare kind line hfree x).trans (if_pos heq)
  | @element _ _ list position value =>
    have hmem : x ∈ (Expr.index list position).vars ++ value.vars ∧
        ∃ kind, fr.scope.meaning x = .outer kind := by
      rcases leaks_cons.mp hleaks with ⟨hx, houter⟩ | hleaks
      · exact ⟨List.mem_append_left _ hx, houter⟩
      · rcases leaks_cons.mp hleaks with ⟨hx, kind, hm⟩ | hleaks
        · exact ⟨List.mem_append_right _ hx, kind, by simpa [Frame.read, Frame.readAll] using hm⟩
        · exact absurd hleaks not_leaks_nil
    obtain ⟨hseen, _⟩ := hread hmem.1 hmem.2
    rw [Frame.readAll_append] at hseen
    exact .of_reads hmem.1 hseen List.not_mem_nil List.not_mem_nil
  | @conditional _ _ condition thenBody elseBody _ _ _ _ _ _ hthen helse =>
    simp only [Stmt.shared, List.mem_append, not_or] at hshared
    have hwf₁ := (hwf.readAll condition.vars).1.enter
    have hnot₁ : x ∉ (fr.read condition).enter.scope.shared := by simpa using hnot
    obtain ⟨hwf₂, hextends₂⟩ := hthen.extends hwf₁
    obtain ⟨_, hextends₃⟩ := helse.extends hwf₂
    have hnot₂ := fun hmem => (hthen.mem_shared hmem).elim hshared.1 hnot₁
    rcases leaks_cons.mp hleaks with ⟨hx, houter⟩ | hleaks
    · obtain ⟨hseen, hbarred⟩ := hread hx houter
      obtain ⟨hassigned₁, hloops₁, hbarred₁⟩ := hthen.barred hwf₁ hbarred.enter (absurd · hshared.1)
      obtain ⟨hassigned₂, hloops₂, _⟩ := helse.barred hwf₂ hbarred₁ (absurd · hshared.2)
      refine .of_reads hx (hextends₃.seen (hextends₂.seen hseen)) ?_ ?_
      · exact fun hmem => (List.mem_append.mp hmem).elim hassigned₁ hassigned₂
      · exact fun hmem => (List.mem_append.mp hmem).elim hloops₁ hloops₂
    · refine .conditional ?_
      rcases leaks_append.mp hleaks with hleaks | hleaks
      · have hstray := hthen.stray hwf₁ hnot₁ hshared.1 hleaks
        have hbarred : Frame.Barred _ x := .inr ⟨hstray.seen, hnot₂⟩
        obtain ⟨hassigned₂, hloops₂, _⟩ := helse.barred hwf₂ hbarred (absurd · hshared.2)
        exact hstray.before (straysIn · elseBody) hextends₃.seen hassigned₂ hloops₂
      · refine (helse.stray hwf₂ hnot₂ hshared.2 hleaks).after fun hmem => ?_
        obtain ⟨kind, hown⟩ := hthen.own_of_assigned hwf₁ hnot₁ hshared.1 hmem
        exact not_leaks_of_own (helse.own_readings hwf₂ hown) hleaks
  | @loopAgain _ _ var bounds _ _ _ _ _ _ hvar hbound hloop =>
    have hwf₁ := (hwf.readAll (Expr.varsAll bounds.exprs)).1
    have hne : x ≠ var := by
      rintro rfl
      exact hfar (Scope.own_of_bound hbound hnot)
    rcases leaks_append.mp hleaks with hleaks | hleaks
    · obtain ⟨hx, houter⟩ := leaks_map.mp hleaks
      obtain ⟨hseen, hbarred⟩ := hread hx houter
      exact .bounds hloop hwf₁ hbarred hseen hshared hx hne
    · have hleaks := hleaks.of_binding fun heq => absurd heq hne
      exact .loop hne (hloop.stray (hwf₁.enterLoop var) (by simpa using hnot) hshared hleaks)
  | @loopFirst _ line var bounds _ _ _ _ _ _ hvar hfree hloop =>
    have hwf₁ := (hwf.readAll (Expr.varsAll bounds.exprs)).1
    obtain ⟨hwf₂, hextends₂⟩ := hwf₁.declare .int line hfree
    have hown : ∀ {y}, y = var → ((fr.readAll (Expr.varsAll bounds.exprs)).declare var .int
        line).scope.meaning y = .own .int := fun heq =>
      (hwf₁.meaning_declare .int line hfree _).trans (if_pos heq)
    rcases leaks_append.mp hleaks with hleaks | hleaks
    · obtain ⟨hx, houter⟩ := leaks_map.mp hleaks
      obtain ⟨hseen, hbarred⟩ := hread hx houter
      have hne := hbarred.ne_of_free hwf₁ hvar hfree
      exact .bounds hloop hwf₂ (hbarred.keep hwf₂ hextends₂ .inr) hseen hshared hx hne
    · have hleaks := hleaks.of_binding fun heq => ⟨.int, hown heq⟩
      have hne : x ≠ var := fun heq =>
        not_leaks_of_own (hloop.own_readings (hwf₂.enterLoop var) (hown heq)) hleaks
      exact .loop hne (hloop.stray (hwf₂.enterLoop var) (by simpa using hnot) hshared hleaks)
  | expr | give =>
    rcases leaks_cons.mp hleaks with ⟨hx, houter⟩ | hleaks
    · exact .of_reads hx (hread hx houter).1 List.not_mem_nil List.not_mem_nil
    · exact absurd hleaks not_leaks_nil
  | bare | share | inert => exact absurd hleaks not_leaks_nil

theorem BindsAll.stray {fr fr' : Frame} {stmts stmts' : List Stmt} {readings : List Reading}
    (h : BindsAll table fr stmts stmts' fr' readings) (hwf : fr.Wf table)
    (hnot : x ∉ fr.scope.shared) (hshared : x ∉ sharedIn stmts) (hleaks : Leaks x readings) :
    Stray x fr' (assignedIn stmts) (loopVarsIn stmts) (straysIn · stmts) := by
  cases h with
  | nil => exact absurd hleaks not_leaks_nil
  | @cons _ _ stmts _ _ _ _ _ _ hhead htail =>
    simp only [sharedIn, List.mem_append, not_or] at hshared
    obtain ⟨hwf₁, hextends₁⟩ := hhead.extends hwf
    obtain ⟨_, hextends₂⟩ := htail.extends hwf₁
    have hnot₁ := fun hmem => (hhead.mem_shared hmem).elim hshared.1 hnot
    rcases leaks_append.mp hleaks with hleaks | hleaks
    · have hstray := hhead.stray hwf hnot hshared.1 hleaks
      have hbarred : Frame.Barred _ x := .inr ⟨hstray.seen, hnot₁⟩
      obtain ⟨hassigned₂, hloops₂, _⟩ := htail.barred hwf₁ hbarred (absurd · hshared.2)
      exact hstray.before (straysIn · stmts) hextends₂.seen hassigned₂ hloops₂
    · refine (htail.stray hwf₁ hnot₁ hshared.2 hleaks).after fun hmem => ?_
      obtain ⟨kind, hown⟩ := hhead.own_of_assigned hwf hnot hshared.1 hmem
      exact not_leaks_of_own (htail.own_readings hwf₁ hown) hleaks

end

end Bodies

section Programs

variable {table : CallTable} {p p' : Program} {task : Task}

/-- Every function of an accepted program is settled, and a name that its body assigns or counts in
and does not declare `global` means the global of that name nowhere in it. A name that is bound by
loops alone is excepted if it is read outside them and after one of them. -/
theorem infer_locality (htable : table.Built) (h : (infer table p).1 = .ok p')
    (htask : task ∈ tasksOf p.statements) :
    (∃ s stmt, Settles table p p' task s stmt) ∧ ∀ s stmt, Settles table p p' task s stmt →
      ∀ x, x ∈ assignedIn task.body ∨ x ∈ loopVarsIn task.body → x ∉ sharedIn task.body →
        (x ∈ straysIn [] task.body → x ∈ assignedIn task.body ∨ x ∈ task.paramNames) →
        ∀ visit ∈ task.visits table (globals table p) s, x ∈ visit.expr.vars →
          ∀ kind, visit.state.frame.scope.meaning x ≠ .outer kind := by
  refine ⟨(infer_accepts htable.sound h).settled task htask, ?_⟩
  intro s stmt hsettles x hbound hshared hstrays visit hvisit hx kind hm
  obtain ⟨kinds, _, _, _, readings, hlength, _, hbinds, hsees⟩ :=
    hsettles.walks htable.sound h htask
  have hwf : (task.start (globals table p) kinds).Wf table := Task.start_wf
  have hleaks : Leaks x readings := by
    obtain ⟨reading, hreading, hsame⟩ := exists_of_forall₂ hsees hvisit
    exact ⟨reading, hreading, hsame.expr ▸ hx, kind, hsame.meaning ▸ hm⟩
  have hnot : x ∉ (task.start (globals table p) kinds).scope.shared := by
    simp [Task.start, Frame.ofScope, Task.bodyScope_eq, Scope.function]
  have hstray := hbinds.stray hwf hnot hshared hleaks
  have hloops := hbound.resolve_left hstray.unassigned
  -- what is bound by loops alone is a parameter then
  have hparam := (hstrays (hstray.mem (.inr hloops))).resolve_left hstray.unassigned
  obtain ⟨kind, hown⟩ : ∃ kind, (task.start (globals table p) kinds).scope.meaning x = .own kind :=
    Task.own_start hlength hparam
  exact not_leaks_of_own (hbinds.own_readings hwf hown) hleaks

/-- A global `x`, and a function that assigns its own `x` and counts in another name. -/
def ownNames : Program where
  header := []
  statements := [
    .assign 1 (.name "x") (.literal (.int 1)) none .unresolved,
    .function 2 ⟨"f", [⟨"n", some .int⟩], none, false⟩ none []
      [.assign 3 (.name "x") (.name "n") none .unresolved,
        .loop 4 "i" ⟨none, .name "n", 1⟩ .unresolved
          [.assign 5 (.name "x") (.binary (.name "x") .add (.name "i")) none .unresolved],
        .give 6 (some (.name "x"))]]

/-- Its `x` is never the global one, in the loop and after it. -/
theorem infer_locality_ownNames : ∃ p', (infer .builtin ownNames).1 = .ok p' ∧
    ∀ task ∈ tasksOf ownNames.statements, (∃ s stmt, Settles .builtin ownNames p' task s stmt) ∧
      ∀ s stmt, Settles .builtin ownNames p' task s stmt →
        ∀ visit ∈ task.visits .builtin (globals .builtin ownNames) s, "x" ∈ visit.expr.vars →
          ∀ kind, visit.state.frame.scope.meaning "x" ≠ .outer kind := by
  obtain ⟨p', h⟩ : ∃ p', (infer .builtin ownNames).1 = .ok p' :=
    Outcome.exists_of_isOk (by decide +kernel)
  refine ⟨p', h, fun task htask => ?_⟩
  obtain ⟨hsettled, hlocal⟩ := infer_locality .builtin h htask
  obtain rfl := List.mem_singleton.mp htask
  refine ⟨hsettled, fun s stmt hsettles => ?_⟩
  exact hlocal s stmt hsettles "x" (by decide) (by decide) (by decide)

/-- A global `x`, and a function that counts in its own `x` and reads it afterwards. -/
def counting : Task :=
  ⟨2, ⟨"f", [], none, false⟩,
    [.loop 3 "x" ⟨none, .literal (.int 3), 1⟩ .unresolved [.pass 4],
      .assign 5 (.name "y") (.name "x") none .unresolved]⟩

def endedLoop : Program where
  header := []
  statements := [.assign 1 (.name "x") (.literal (.int 1)) none .unresolved,
    .function counting.line counting.head none [] counting.body]

/-- After the loop its variable is the global again. -/
theorem infer_ended_loop : ∃ p' s stmt, (infer .builtin endedLoop).1 = .ok p' ∧
    Settles .builtin endedLoop p' counting s stmt ∧
    "x" ∈ loopVarsIn counting.body ∧ "x" ∉ sharedIn counting.body ∧
    ∃ visit ∈ counting.visits .builtin (globals .builtin endedLoop) s, "x" ∈ visit.expr.vars ∧
      visit.state.frame.scope.meaning "x" = .outer .int := by
  obtain ⟨p', h⟩ : ∃ p', (infer .builtin endedLoop).1 = .ok p' :=
    Outcome.exists_of_isOk (by decide +kernel)
  obtain ⟨s, stmt, hsettles⟩ :=
    (infer_accepts CallTable.Built.builtin.sound h).settled counting List.mem_cons_self
  obtain rfl := hsettles.tried.of_alone (by decide +kernel)
  refine ⟨p', _, stmt, h, hsettles, by decide, by decide, ?_⟩
  decide +kernel

end Programs

end Inference

end Sketchwright
