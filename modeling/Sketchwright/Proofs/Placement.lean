import Sketchwright.Proofs.Inheritance

/-! Where the statements of a program stand when it has been read, whatever its tokens are.
Inference and the sketch rely on this and do not check it again: functions are not nested, jumps
have a loop around them, and the slots for inference are empty. -/

namespace Sketchwright

/-- A head as it is read: the parameters have different names, and the functions that the runtime
calls have none and give nothing. -/
structure FunctionHead.AsRead (head : FunctionHead) : Prop where
  nodup : (head.params.map Param.name).Nodup
  isEntry : head.isEntry = entryPoints.contains head.name
  params : head.name ∈ entryPoints → head.params = []
  returns : head.name ∈ entryPoints → ∀ kind, head.returns = some kind → kind = .void

/-- A statement of a function body as it is read, in a loop of that function or not. -/
inductive Stmt.InBody : (inLoop : Bool) → Stmt → Prop
  | assign {inLoop line target value declared} :
      InBody inLoop (.assign line target value declared .unresolved)
  | conditional {inLoop line condition thenBody elseBody}
      (hthen : ∀ stmt ∈ thenBody, InBody inLoop stmt)
      (helse : ∀ stmt ∈ elseBody, InBody inLoop stmt) :
      InBody inLoop (.conditional line condition thenBody elseBody)
  | loop {inLoop line var bounds body} (hstep : bounds.step ≠ 0)
      (hbody : ∀ stmt ∈ body, InBody true stmt) :
      InBody inLoop (.loop line var bounds .unresolved body)
  | expr {inLoop line value} : InBody inLoop (.expr line value)
  | give {inLoop line value} : InBody inLoop (.give line value)
  | global {inLoop line names} : InBody inLoop (.global line names)
  | comment {inLoop line style text} : InBody inLoop (.comment line style text)
  | blank {inLoop line} : InBody inLoop (.blank line)
  | pass {inLoop line} : InBody inLoop (.pass line)
  | stop {line} : InBody true (.stop line)
  | skip {line} : InBody true (.skip line)

/-- A statement outside all functions as it is read. -/
inductive Stmt.AtTop : Stmt → Prop
  | function {line head body} (hhead : head.AsRead) (hbody : ∀ stmt ∈ body, stmt.InBody false) :
      AtTop (.function line head none [] body)
  | assign {line target value declared} : AtTop (.assign line target value declared .unresolved)
  | comment {line style text} : AtTop (.comment line style text)
  | blank {line} : AtTop (.blank line)
  | pass {line} : AtTop (.pass line)

namespace Program

open Reading

/-- A program as it is read. -/
structure AsRead (p : Program) : Prop where
  header : ∀ stmt ∈ p.header, stmt.isTrivia = true
  first : ∀ stmt ∈ p.statements.head?, stmt.isTrivia = false
  last : ∀ stmt ∈ (p.header ++ p.statements).getLast?, stmt.isBlank = false
  statements : ∀ stmt ∈ p.statements, stmt.AtTop

/-- What the grammar makes sure of for the statements that it reads at a place. Outside functions it
reads statements that may not stand there as well: they are found in the end. -/
structure Permitted (place : Place) (stmts : List Stmt) : Prop where
  body : place.inFunction = true → ∀ stmt ∈ stmts, stmt.InBody place.inLoop
  module : place.inFunction = false → ∀ stmt ∈ stmts, stmt.isModuleLevel = true → stmt.AtTop

namespace Permitted

variable {place : Place} {stmts more : List Stmt}

theorem nil : Permitted place [] where
  body _ := List.forall_mem_nil _
  module _ := List.forall_mem_nil _

theorem append (h : Permitted place stmts) (hmore : Permitted place more) :
    Permitted place (stmts ++ more) where
  body hplace := List.forall_mem_append.mpr ⟨h.body hplace, hmore.body hplace⟩
  module hplace := List.forall_mem_append.mpr ⟨h.module hplace, hmore.module hplace⟩

theorem single {stmt : Stmt} (hbody : place.inFunction = true → stmt.InBody place.inLoop)
    (htop : place.inFunction = false → stmt.isModuleLevel = true → stmt.AtTop) :
    Permitted place [stmt] where
  body hplace := List.forall_mem_singleton.mpr (hbody hplace)
  module hplace := List.forall_mem_singleton.mpr (htop hplace)

theorem trivia {stmt : Stmt} (h : stmt.isTrivia = true) : Permitted place [stmt] := by
  cases stmt with
  | comment => exact single (fun _ => .comment) (fun _ _ => .comment)
  | blank => exact single (fun _ => .blank) (fun _ _ => .blank)
  | _ => cases h

end Permitted

section Readers

variable {finalLine line : Nat} {place : Place} {ts : List Token}

theorem assignmentOrExpr_permitted :
    Yields (assignmentOrExpr finalLine line ts) fun r => Permitted place [r.value] := by
  have hassign : ∀ {target value declared},
      Permitted place [.assign line target value declared .unresolved] :=
    .single (fun _ => .assign) (fun _ _ => .assign)
  unfold assignmentOrExpr
  refine .check fun _ => .bind_eq fun left _ => ?_
  dsimp only
  split
  · split
    · exact .fail
    · exact .bind_eq fun value _ => .check fun _ => .pure hassign
  · split
    · exact .bind_eq fun kind _ => .check fun _ => .bind_eq fun value _ => .pure hassign
    · exact .fail
  · exact .fail
  · exact .fail
  · exact .pure (.single (fun _ => .expr) (fun _ h => by cases h))

/-- What is read without a block may stand in a function, jumps in a loop only. -/
theorem simpleForm_permitted :
    Yields (simpleForm finalLine place ts) fun r => Permitted place [r.value] := by
  unfold simpleForm
  split
  · exact .fail
  · split
    · refine .check fun _ => ?_
      split
      · exact .pure (.single (fun _ => .give) (fun _ h => by cases h))
      · exact .bind_eq fun value _ => .pure (.single (fun _ => .give) (fun _ h => by cases h))
    · exact .pure (.single (fun _ => .pass) (fun _ _ => .pass))
    · refine .check fun hloop => .pure (.single (fun _ => ?_) (fun _ h => by cases h))
      have hplace : place.inLoop = true := by simpa using hloop
      rw [hplace]
      exact .stop
    · refine .check fun hloop => .pure (.single (fun _ => ?_) (fun _ h => by cases h))
      have hplace : place.inLoop = true := by simpa using hloop
      rw [hplace]
      exact .skip
    · refine .check fun _ => .bind_eq fun ids _ => ?_
      exact .pure (.single (fun _ => .global) (fun _ h => by cases h))
    · split
      · exact .fail
      · exact assignmentOrExpr_permitted
    · split
      · exact .pure (.trivia rfl)
      · exact assignmentOrExpr_permitted
    · exact assignmentOrExpr_permitted

/-- Parameters have names that none of those before has. -/
theorem parameters_nodup {seen : List Param} {ts : List Token}
    (hseen : (seen.map Param.name).Nodup) :
    Yields (parameters finalLine line seen ts) fun r =>
      ((seen ++ r.value).map Param.name).Nodup := by
  unfold parameters
  split
  · exact .pure (by simpa using hseen)
  · exact .fail
  · exact .fail
  refine .bind_eq fun name _ => .check fun hnew => ?_
  have hsnoc : ∀ kind, ((seen ++ [Param.mk name.value kind]).map Param.name).Nodup := by
    intro kind
    have hname : name.value ∉ seen.map Param.name := by simpa using hnew
    simpa [List.nodup_append, hseen] using hname
  refine .bind_eq fun kind _ => ?_
  have hfits := kind.fits
  dsimp only
  split
  · exact .fail
  · refine .bind (parameters_nodup (hsnoc kind.value)) ?_
    rintro more hmore
    exact .pure (by simpa using hmore)
  · exact .bind_eq fun _ _ => .pure (hsnoc kind.value)
termination_by ts.length

theorem functionHead_asRead : Yields (functionHead finalLine line ts) fun r => r.value.AsRead := by
  unfold functionHead
  refine .bind_eq fun name _ => .bind_eq fun _ _ => ?_
  refine .bind (parameters_nodup List.nodup_nil) fun params hnodup => ?_
  refine .bind_eq fun returns _ => .check fun hnone => .check fun hvoid =>
    .bind_eq fun _ _ => .pure ?_
  constructor
  · exact hnodup
  · rfl
  · intro hentry
    simpa [hentry] using hnone
  · intro hentry kind hkind
    dsimp only at hentry hkind
    simpa [hentry, hkind] using hvoid

theorem stepOf_ne_zero {step : Expr} : Yields (stepOf line step) (· ≠ 0) := by
  unfold stepOf
  dsimp only
  split
  · exact .check fun hzero => .pure hzero
  · exact .check fun hzero => .pure hzero
  · exact .fail

theorem boundsOf_ne_zero {args : List Expr} :
    Yields (boundsOf line args) fun bounds => bounds.step ≠ 0 := by
  unfold boundsOf
  split
  · exact .pure Int.one_ne_zero
  · exact .pure Int.one_ne_zero
  · exact .bind stepOf_ne_zero fun step hstep => .pure hstep
  · exact .fail

theorem loopHead_ne_zero : Yields (loopHead finalLine line ts) fun r => r.value.2.step ≠ 0 := by
  unfold loopHead
  refine .bind_eq fun var _ => .check fun _ => .bind_eq fun _ _ => .bind_eq fun iterable _ => ?_
  dsimp only
  split
  · refine .check fun _ => .bind boundsOf_ne_zero fun bounds hbounds => ?_
    exact .bind_eq fun _ _ => .pure hbounds
  · exact .fail

/-- From the simple statements and the heads on, all statements are allowed where they are read. -/
theorem inherits_permitted (finalLine : Nat) : Inherits finalLine (fun _ => True) Permitted where
  suffix _ _ := trivial
  nil := .nil
  append := .append
  trivia := .trivia
  simple _ hr := simpleForm_permitted _ hr
  function hplace _ hr hbody := by
    refine .single (fun h => absurd (hplace.symm.trans h) Bool.false_ne_true) fun _ _ => ?_
    exact .function (functionHead_asRead _ hr) (hbody.body rfl)
  conditional _ _ hthen helse := by
    refine .single (fun hplace => ?_) (fun _ h => by cases h)
    exact .conditional (hthen.body hplace) (helse.body hplace)
  loop _ hr hbody := by
    refine .single (fun hplace => ?_) (fun _ h => by cases h)
    exact .loop (loopHead_ne_zero _ hr) (hbody.body hplace)

end Readers

theorem checkModuleLevel_yields (stmts : List Stmt) :
    Yields (checkModuleLevel stmts) fun _ => ∀ stmt ∈ stmts, stmt.isModuleLevel = true := by
  unfold checkModuleLevel
  split
  · exact .fail
  · next hnone => exact .pure (by simpa using hnone)

/-- Blank lines at the end are dropped first, then the header ends at the first statement. -/
theorem ofStatements_asRead {stmts : List Stmt} (h : ∀ stmt ∈ stmts, stmt.AtTop) :
    (ofStatements stmts).AsRead := by
  constructor
  · intro stmt hstmt
    exact List.all_eq_true.mp List.all_takeWhile stmt hstmt
  · intro stmt hstmt
    have hfirst :=
      List.head?_dropWhile_not Stmt.isTrivia (stmts.reverse.dropWhile Stmt.isBlank).reverse
    rw [ofStatements] at hstmt
    rw [Option.mem_def.mp hstmt] at hfirst
    simpa using hfirst
  · intro stmt hstmt
    have hlast := List.head?_dropWhile_not Stmt.isBlank stmts.reverse
    rw [ofStatements, List.takeWhile_append_dropWhile, List.getLast?_reverse] at hstmt
    rw [Option.mem_def.mp hstmt] at hlast
    simpa using hlast
  · intro stmt hstmt
    have hkept := (List.dropWhile_suffix _).subset hstmt
    exact h stmt (List.mem_reverse.mp
      ((List.dropWhile_suffix _).subset (List.mem_reverse.mp hkept)))

theorem read_asRead (finalLine : Nat) (ts : List Token) : Yields (read finalLine ts) AsRead := by
  unfold read
  refine .bind ((inherits_permitted finalLine).topLevel_inherits trivial) fun stmts hpermitted => ?_
  refine .bind (checkModuleLevel_yields stmts) fun _ hlevel => .pure ?_
  exact ofStatements_asRead fun stmt hstmt => hpermitted.module rfl stmt hstmt (hlevel stmt hstmt)

/-- Whatever tokens a program is read from, its statements stand where they may stand,
and nothing is resolved. -/
theorem ofTokens_asRead {tokens : List Token} {source : String} {p : Program}
    (h : ofTokens tokens source = .ok p) : p.AsRead := by
  unfold ofTokens at h
  dsimp only at h
  split at h
  · next hread =>
    cases h
    exact read_asRead _ _ _ hread
  · cases h

theorem ofTokens_asRead_blink : ofTokens blinkTokens blinkText = .ok blink ∧ blink.AsRead :=
  ⟨ofTokens_blink, ofTokens_asRead ofTokens_blink⟩

end Program

end Sketchwright
