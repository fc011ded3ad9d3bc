import Sketchwright.Proofs.Frames
import Sketchwright.Proofs.Typing

/-! The rules of statements. A statement takes the frame of its body to another one and gets its
slots filled; with complete signatures at hand it does so in one way. The rules also list what is
read, in order, each reading with the scope in which it happens. -/

namespace Sketchwright

/-- The expressions of a loop header, in the order of reading. -/
def Bounds.exprs (bounds : Bounds) : List Expr := bounds.start.toList ++ [bounds.stop]

/-- Statements that inference leaves as they are. -/
def Stmt.isInert : Stmt → Bool
  | .comment .. | .blank _ | .pass _ | .stop _ | .skip _ => true
  | _ => false

namespace Inference

namespace Scope

/-- The kind of a name that is bound in a body: a local name, or a global that the body shares. -/
def bound? (s : Scope) (name : String) : Option Kind :=
  match s.meaning name with
  | .own kind => some kind
  | .outer kind => if s.isShared name then some kind else none
  | .later _ | .missing => none

/-- A name that a body may bind for the first time: none that hides a global after it was read. -/
structure Free (s : Scope) (name : String) : Prop where
  unbound : s.bound? name = none
  unseen : s.meaning name ≠ .missing → s.isSeen name = false

theorem bound?_readAll (s : Scope) (names : List String) (x : String) :
    (s.readAll names).bound? x = s.bound? x := by
  have hshared : (s.readAll names).isShared x = s.isShared x :=
    readAll_preserves (P := fun t => t.isShared x = s.isShared x) id rfl names
  simp only [bound?, meaning_readAll, hshared]

/-- To share a name that is not local changes no meaning. -/
theorem meaning_share {s : Scope} {name : String} (hname : s.isLocal name = false) (x : String) :
    (s.share name).meaning x = s.meaning x := by
  have hlocal : (s.share name).local? x = s.local? x := by
    by_cases hx : x = name
    · subst hx
      have hnone : s.locals.lookup x = none := by simpa [isLocal] using hname
      simp [local?, share, hnone]
    · simp [local?, share, isShared, hx]
  simp only [meaning, hlocal]
  rfl

/-- A name that is bound is not free, whatever is read in between. -/
theorem Free.ne_bound {s : Scope} {names : List String} {x : String} {kind : Kind}
    (h : (s.readAll names).Free x) : s.bound? x ≠ some kind := by
  rw [← bound?_readAll s names, h.unbound]
  exact nofun

end Scope

namespace Frame

def declare (fr : Frame) (name : String) (kind : Kind) (line : Nat) : Frame :=
  { fr with scope := fr.scope.declare name kind line }

def hoist (fr : Frame) (name : String) (kind : Kind) (line : Nat) : Frame :=
  { fr.declare name kind line with hoisted := fr.hoisted ++ [(name, kind)] }

def share (fr : Frame) (names : List String) : Frame :=
  { fr with scope := names.foldl Scope.share fr.scope }

def enter (fr : Frame) : Frame := { fr with depth := fr.depth + 1 }

def leave (fr : Frame) : Frame := { fr with depth := fr.depth - 1 }

def enterLoop (fr : Frame) (var : String) : Frame :=
  { fr.enter with loopVars := var :: fr.loopVars }

def leaveLoop (fr : Frame) : Frame := { fr.leave with loopVars := fr.loopVars.tail }

/-- The frame after a loop: a variable that the loop declared ends with it. -/
def afterLoop (fr : Frame) (var : String) : Binding → Frame
  | .declare _ => { fr.leaveLoop with scope := fr.scope.remove var }
  | .reassign | .unresolved => fr.leaveLoop

end Frame

/-- An expression that is read, or a name that is written, and the scope at that point. -/
structure Reading where
  scope : Scope
  expr : Expr

/-- The kind of an assigned value, which alone may be a list. -/
inductive Assigned (c : Callees) (names : Names) : Expr → Kind → Prop
  | value {e kind} (hkind : HasKind c names e kind) : Assigned c names e kind
  | list {items kind} (hne : items ≠ []) (hitems : ∀ item ∈ items, HasKind c names item kind) :
      Assigned c names (.list items) (.list kind items.length)

/-- A name gets the kind of its first value, or the declared kind if that accepts the value. -/
inductive Declares : Option Kind → Kind → Kind → Prop
  | inferred {kind} : Declares none kind kind
  | annotated {kind declared} (hkind : kind.isList = false)
      (haccepts : declared.accepts kind = true) : Declares (some declared) kind declared

/-- A function of these returns goes on from the results before a `return` to those after it. -/
inductive Returned : Option Kind → Option Kind → Kind → Option Kind → Prop
  | annotated {expected before kind}
      (hkind : if expected = .void then kind = .void else expected.accepts kind = true) :
      Returned (some expected) before kind before
  | first {kind} : Returned none none kind (some kind)
  | again {kind} : Returned none (some kind) kind (some kind)

/-- The name is no name of the runtime and no variable of a surrounding loop. -/
structure Assignable (c : Callees) (fr : Frame) (name : String) : Prop where
  unknown : c.table.isKnown name = false
  noLoopVar : name ∉ fr.loopVars

mutual

/-- In a body of a function that returns `returns`, if that is known, a statement becomes the second
one and takes the first frame to the second. -/
inductive Resolves (c : Callees) (returns : Option Kind) :
    Frame → Stmt → Stmt → Frame → List Reading → Prop
  | again {fr line name value declared b kind}
      (hvalue : HasKind c (fr.scope.kind? c.table) value kind) (hname : Assignable c fr name)
      (hbody : fr.scope.isModule = false) (hbound : fr.scope.bound? name = some kind)
      (hdeclared : declared = none ∨ declared = some kind) :
      Resolves c returns fr (.assign line (.name name) value declared b)
        (.assign line (.name name) value declared .reassign) (fr.read value)
        [⟨fr.scope, value⟩, ⟨(fr.read value).scope, .name name⟩]
  | first {fr line name value declared b found kind}
      (hvalue : Assigned c (fr.scope.kind? c.table) value found) (hname : Assignable c fr name)
      (hfree : (fr.read value).scope.Free name) (hkind : Declares declared found kind)
      (hdepth : fr.depth = 0) :
      Resolves c returns fr (.assign line (.name name) value declared b)
        (.assign line (.name name) value declared (.declare kind))
        ((fr.read value).declare name kind line)
        [⟨fr.scope, value⟩, ⟨((fr.read value).declare name kind line).scope, .name name⟩]
  | hoist {fr line name value declared b found kind}
      (hvalue : HasKind c (fr.scope.kind? c.table) value found) (hname : Assignable c fr name)
      (hfree : (fr.read value).scope.Free name) (hkind : Declares declared found kind)
      (hdepth : fr.depth ≠ 0) :
      Resolves c returns fr (.assign line (.name name) value declared b)
        (.assign line (.name name) value declared .reassign) ((fr.read value).hoist name kind line)
        [⟨fr.scope, value⟩, ⟨((fr.read value).hoist name kind line).scope, .name name⟩]
  | element {fr line list position value declared b element n index kind}
      (hbody : fr.scope.isModule = false)
      (hlist : fr.scope.kind? c.table list = some (.list element n))
      (hposition : HasKind c (fr.scope.kind? c.table) position index)
      (hindex : index.isInteger = true)
      (hvalue : HasKind c (fr.scope.kind? c.table) value kind)
      (haccepts : element.accepts kind = true) :
      Resolves c returns fr (.assign line (.element list position) value declared b)
        (.assign line (.element list position) value declared .reassign)
        ((fr.read (.index list position)).read value)
        [⟨fr.scope, .index list position⟩, ⟨(fr.read (.index list position)).scope, value⟩]
  | conditional {fr line condition thenBody elseBody thenBody' elseBody' kind fr₁ fr₂ r₁ r₂}
      (hcondition : HasKind c (fr.scope.kind? c.table) condition kind) (hkind : kind ≠ .str)
      (hthen : ResolvesAll c returns (fr.read condition).enter thenBody thenBody' fr₁ r₁)
      (helse : ResolvesAll c returns fr₁ elseBody elseBody' fr₂ r₂) :
      Resolves c returns fr (.conditional line condition thenBody elseBody)
        (.conditional line condition thenBody' elseBody') fr₂.leave
        (⟨fr.scope, condition⟩ :: (r₁ ++ r₂))
  | loopAgain {fr line var bounds b body body' fr' r}
      (hbounds : ∀ e ∈ bounds.exprs, ∃ kind, HasKind c (fr.scope.kind? c.table) e kind ∧
        kind.isInteger = true)
      (hvar : var ∉ fr.loopVars) (hbound : fr.scope.bound? var = some .int)
      (hloop : ResolvesAll c returns
        ((fr.readAll (Expr.varsAll bounds.exprs)).enterLoop var) body body' fr' r) :
      Resolves c returns fr (.loop line var bounds b body) (.loop line var bounds .reassign body')
        (fr'.afterLoop var .reassign) (bounds.exprs.map (⟨fr.scope, ·⟩) ++
          ⟨(fr.readAll (Expr.varsAll bounds.exprs)).scope, .name var⟩ :: r)
  | loopFirst {fr line var bounds b body body' fr' r}
      (hbounds : ∀ e ∈ bounds.exprs, ∃ kind, HasKind c (fr.scope.kind? c.table) e kind ∧
        kind.isInteger = true)
      (hvar : var ∉ fr.loopVars)
      (hfree : (fr.readAll (Expr.varsAll bounds.exprs)).scope.Free var)
      (hloop : ResolvesAll c returns
        (((fr.readAll (Expr.varsAll bounds.exprs)).declare var .int line).enterLoop var) body
        body' fr' r) :
      Resolves c returns fr (.loop line var bounds b body)
        (.loop line var bounds (.declare .int) body') (fr'.afterLoop var (.declare .int))
        (bounds.exprs.map (⟨fr.scope, ·⟩) ++
          ⟨((fr.readAll (Expr.varsAll bounds.exprs)).declare var .int line).scope,
            .name var⟩ :: r)
  | call {fr line callee args}
      (hcall : CallStands c (fr.scope.kind? c.table) callee args) :
      Resolves c returns fr (.expr line (.call callee args)) (.expr line (.call callee args))
        (fr.read (.call callee args)) [⟨fr.scope, .call callee args⟩]
  | expr {fr line value kind} (hvalue : HasKind c (fr.scope.kind? c.table) value kind) :
      Resolves c returns fr (.expr line value) (.expr line value) (fr.read value)
        [⟨fr.scope, value⟩]
  | give {fr line value kind after} (hvalue : HasKind c (fr.scope.kind? c.table) value kind)
      (hreturned : Returned returns fr.returned kind after) :
      Resolves c returns fr (.give line (some value)) (.give line (some value))
        { fr.read value with returned := after } [⟨fr.scope, value⟩]
  | bare {fr line after} (hreturned : Returned returns fr.returned .void after) :
      Resolves c returns fr (.give line none) (.give line none) { fr with returned := after } []
  | share {fr line names}
      (hnames : ∀ name ∈ names, fr.scope.isLocal name = false ∧
        ∃ kind, fr.scope.meaning name = .outer kind) :
      Resolves c returns fr (.global line names) (.global line names) (fr.share names) []
  | inert {fr stmt} (hstmt : stmt.isInert = true) : Resolves c returns fr stmt stmt fr []

/-- The same for the statements of a block, one after the other. -/
inductive ResolvesAll (c : Callees) (returns : Option Kind) :
    Frame → List Stmt → List Stmt → Frame → List Reading → Prop
  | nil {fr} : ResolvesAll c returns fr [] [] fr []
  | cons {fr stmt stmts stmt' stmts' fr₁ fr₂ r₁ r₂}
      (hhead : Resolves c returns fr stmt stmt' fr₁ r₁)
      (htail : ResolvesAll c returns fr₁ stmts stmts' fr₂ r₂) :
      ResolvesAll c returns fr (stmt :: stmts) (stmt' :: stmts') fr₂ (r₁ ++ r₂)

end

section Unique

variable {c : Callees} {returns : Option Kind} {fr : Frame}

theorem Assigned.unique {names : Names} {e : Expr} {k j : Kind} (h₁ : Assigned c names e k)
    (h₂ : Assigned c names e j) : k = j := by
  cases h₁ with
  | value hk =>
    cases h₂ with
    | value hj => exact hk.unique hj
    | list => cases hk
  | list hne hk =>
    cases h₂ with
    | value hj => cases hj
    | list _ hj =>
      obtain ⟨item, hitem⟩ := List.exists_mem_of_ne_nil _ hne
      rw [(hk item hitem).unique (hj item hitem)]

theorem Declares.unique {declared : Option Kind} {found k j : Kind}
    (h₁ : Declares declared found k) (h₂ : Declares declared found j) : k = j := by
  cases h₁ <;> cases h₂ <;> rfl

theorem Returned.unique {before after after' : Option Kind} {kind : Kind}
    (h₁ : Returned returns before kind after) (h₂ : Returned returns before kind after') :
    after = after' := by
  cases h₁ <;> cases h₂ <;> rfl

mutual

/-- A statement becomes at most one statement, by readings in one order. -/
theorem Resolves.unique (stmt : Stmt) {fr f₁ f₂ : Frame} {s₁ s₂ : Stmt} {r₁ r₂ : List Reading}
    (h₁ : Resolves c returns fr stmt s₁ f₁ r₁) (h₂ : Resolves c returns fr stmt s₂ f₂ r₂) :
    s₁ = s₂ ∧ f₁ = f₂ ∧ r₁ = r₂ := by
  cases stmt with
  | assign line target value declared b =>
    cases h₁ with
    | again hvalue _ _ hbound =>
      cases h₂ with
      | again => exact ⟨rfl, rfl, rfl⟩
      | first _ _ hfree | hoist _ _ hfree => exact absurd hbound hfree.ne_bound
      | inert h => cases h
    | first hvalue _ hfree hkind hdepth =>
      cases h₂ with
      | again _ _ _ hbound => exact absurd hbound hfree.ne_bound
      | inert h => cases h
      | first hvalue' _ _ hkind' =>
        cases hvalue.unique hvalue'
        cases hkind.unique hkind'
        exact ⟨rfl, rfl, rfl⟩
      | hoist _ _ _ _ hdepth' => exact absurd hdepth hdepth'
    | hoist hvalue _ hfree hkind hdepth =>
      cases h₂ with
      | again _ _ _ hbound => exact absurd hbound hfree.ne_bound
      | inert h => cases h
      | first _ _ _ _ hdepth' => exact absurd hdepth' hdepth
      | hoist hvalue' _ _ hkind' =>
        cases hvalue.unique hvalue'
        cases hkind.unique hkind'
        exact ⟨rfl, rfl, rfl⟩
    | element =>
      cases h₂ with
      | element => exact ⟨rfl, rfl, rfl⟩
      | inert h => cases h
    | inert h => cases h
  | conditional line condition thenBody elseBody =>
    cases h₁ with
    | conditional _ _ hthen helse =>
      cases h₂ with
      | conditional _ _ hthen' helse' =>
        obtain ⟨rfl, rfl, rfl⟩ := ResolvesAll.unique thenBody hthen hthen'
        obtain ⟨rfl, rfl, rfl⟩ := ResolvesAll.unique elseBody helse helse'
        exact ⟨rfl, rfl, rfl⟩
      | inert h => cases h
    | inert h => cases h
  | loop line var bounds b body =>
    cases h₁ with
    | loopAgain _ _ hbound hloop =>
      cases h₂ with
      | loopAgain _ _ _ hloop' =>
        obtain ⟨rfl, rfl, rfl⟩ := ResolvesAll.unique body hloop hloop'
        exact ⟨rfl, rfl, rfl⟩
      | loopFirst _ _ hfree => exact absurd hbound hfree.ne_bound
      | inert h => cases h
    | loopFirst _ _ hfree hloop =>
      cases h₂ with
      | loopAgain _ _ hbound => exact absurd hbound hfree.ne_bound
      | loopFirst _ _ _ hloop' =>
        obtain ⟨rfl, rfl, rfl⟩ := ResolvesAll.unique body hloop hloop'
        exact ⟨rfl, rfl, rfl⟩
      | inert h => cases h
    | inert h => cases h
  | expr line value =>
    cases h₁ with
    | call | expr =>
      cases h₂ with
      | call | expr => exact ⟨rfl, rfl, rfl⟩
      | inert h => cases h
    | inert h => cases h
  | give line value =>
    cases h₁ with
    | give hvalue hreturned =>
      cases h₂ with
      | give hvalue' hreturned' =>
        cases hvalue.unique hvalue'
        cases hreturned.unique hreturned'
        exact ⟨rfl, rfl, rfl⟩
      | inert h => cases h
    | bare hreturned =>
      cases h₂ with
      | bare hreturned' =>
        cases hreturned.unique hreturned'
        exact ⟨rfl, rfl, rfl⟩
      | inert h => cases h
    | inert h => cases h
  | global line names =>
    cases h₁ with
    | share =>
      cases h₂ with
      | share => exact ⟨rfl, rfl, rfl⟩
      | inert h => cases h
    | inert h => cases h
  | function =>
    cases h₁ with
    | inert h => cases h
  | comment | blank | pass | stop | skip =>
    cases h₁ with
    | inert =>
      cases h₂ with
      | inert => exact ⟨rfl, rfl, rfl⟩

theorem ResolvesAll.unique (stmts : List Stmt) {fr f₁ f₂ : Frame} {ss₁ ss₂ : List Stmt}
    {r₁ r₂ : List Reading} (h₁ : ResolvesAll c returns fr stmts ss₁ f₁ r₁)
    (h₂ : ResolvesAll c returns fr stmts ss₂ f₂ r₂) : ss₁ = ss₂ ∧ f₁ = f₂ ∧ r₁ = r₂ := by
  cases stmts with
  | nil =>
    cases h₁
    cases h₂
    exact ⟨rfl, rfl, rfl⟩
  | cons stmt stmts =>
    cases h₁ with
    | cons hhead htail =>
      cases h₂ with
      | cons hhead' htail' =>
        obtain ⟨rfl, rfl, rfl⟩ := Resolves.unique stmt hhead hhead'
        obtain ⟨rfl, rfl, rfl⟩ := ResolvesAll.unique stmts htail htail'
        exact ⟨rfl, rfl, rfl⟩

end

end Unique

end Inference

end Sketchwright
