import Sketchwright.Proofs.Resolution

/-! How the statements of a body bind names, whatever the kinds of their expressions are.
These rules are the statement rules without the kinds, so that they hold of every body
that inference accepts. -/

namespace Sketchwright.Inference

/-- Each of the names has a kind. -/
def Scope.Knows (table : CallTable) (s : Scope) (names : List String) : Prop :=
  ∀ x ∈ names, ∃ kind, s.kind? table x = some kind

namespace Scope.Knows

variable {table : CallTable} {s : Scope} {names more : List String}

theorem nil : s.Knows table [] := List.forall_mem_nil _

theorem singleton {x : String} {kind : Kind} (h : s.kind? table x = some kind) :
    s.Knows table [x] := List.forall_mem_singleton.mpr ⟨kind, h⟩

theorem append (h₁ : s.Knows table names) (h₂ : s.Knows table more) :
    s.Knows table (names ++ more) := List.forall_mem_append.mpr ⟨h₁, h₂⟩

theorem of_readAll (h : (s.readAll names).Knows table more) : s.Knows table more := by
  intro x hx
  obtain ⟨kind, hkind⟩ := h x hx
  exact ⟨kind, by simpa using hkind⟩

end Scope.Knows

/-- The name may be assigned: it is no name of the runtime and no variable of a surrounding loop. -/
structure Frame.Writable (table : CallTable) (fr : Frame) (name : String) : Prop where
  unknown : table.isKnown name = false
  noLoopVar : name ∉ fr.loopVars

/-- A kind that was returned before stays the kind of the result. -/
def KeepsReturned (before after : Option Kind) : Prop :=
  ∀ {kind}, before = some kind → after = some kind

mutual

/-- A statement becomes the second one, takes the first frame of its body to the second, and reads
and writes these names on the way. -/
inductive Binds (table : CallTable) : Frame → Stmt → Stmt → Frame → List Reading → Prop
  | again {fr line name value declared b kind} (hname : fr.Writable table name)
      (hbody : fr.scope.isModule = false) (hbound : fr.scope.bound? name = some kind)
      (hkind : kind.isList = false) :
      Binds table fr (.assign line (.name name) value declared b)
        (.assign line (.name name) value declared .reassign) (fr.read value)
        [⟨fr.scope, value⟩, ⟨(fr.read value).scope, .name name⟩]
  | first {fr line name value declared b} (kind : Kind) (hname : fr.Writable table name)
      (hfree : (fr.read value).scope.Free name) (hdepth : fr.depth = 0) :
      Binds table fr (.assign line (.name name) value declared b)
        (.assign line (.name name) value declared (.declare kind))
        ((fr.read value).declare name kind line)
        [⟨fr.scope, value⟩, ⟨((fr.read value).declare name kind line).scope, .name name⟩]
  | hoist {fr line name value declared b} (kind : Kind) (hname : fr.Writable table name)
      (hfree : (fr.read value).scope.Free name) (hdepth : fr.depth ≠ 0) :
      Binds table fr (.assign line (.name name) value declared b)
        (.assign line (.name name) value declared .reassign) ((fr.read value).hoist name kind line)
        [⟨fr.scope, value⟩, ⟨((fr.read value).hoist name kind line).scope, .name name⟩]
  | element {fr line list position value declared b} (hbody : fr.scope.isModule = false) :
      Binds table fr (.assign line (.element list position) value declared b)
        (.assign line (.element list position) value declared .reassign)
        ((fr.read (.index list position)).read value)
        [⟨fr.scope, .index list position⟩, ⟨(fr.read (.index list position)).scope, value⟩]
  | conditional {fr line condition thenBody elseBody thenBody' elseBody' fr₁ fr₂ r₁ r₂}
      (hthen : BindsAll table (fr.read condition).enter thenBody thenBody' fr₁ r₁)
      (helse : BindsAll table fr₁ elseBody elseBody' fr₂ r₂) :
      Binds table fr (.conditional line condition thenBody elseBody)
        (.conditional line condition thenBody' elseBody') fr₂.leave
        (⟨fr.scope, condition⟩ :: (r₁ ++ r₂))
  | loopAgain {fr line var bounds b body body' fr' r}
      (hbounds : fr.scope.Knows table (Expr.varsAll bounds.exprs)) (hvar : var ∉ fr.loopVars)
      (hbound : fr.scope.bound? var = some .int)
      (hloop : BindsAll table
        ((fr.readAll (Expr.varsAll bounds.exprs)).enterLoop var) body body' fr' r) :
      Binds table fr (.loop line var bounds b body) (.loop line var bounds .reassign body')
        (fr'.afterLoop var .reassign) (bounds.exprs.map (⟨fr.scope, ·⟩) ++
          ⟨(fr.readAll (Expr.varsAll bounds.exprs)).scope, .name var⟩ :: r)
  | loopFirst {fr line var bounds b body body' fr' r}
      (hbounds : fr.scope.Knows table (Expr.varsAll bounds.exprs)) (hvar : var ∉ fr.loopVars)
      (hfree : (fr.readAll (Expr.varsAll bounds.exprs)).scope.Free var)
      (hloop : BindsAll table
        (((fr.readAll (Expr.varsAll bounds.exprs)).declare var .int line).enterLoop var) body
        body' fr' r) :
      Binds table fr (.loop line var bounds b body)
        (.loop line var bounds (.declare .int) body') (fr'.afterLoop var (.declare .int))
        (bounds.exprs.map (⟨fr.scope, ·⟩) ++
          ⟨((fr.readAll (Expr.varsAll bounds.exprs)).declare var .int line).scope,
            .name var⟩ :: r)
  | expr {fr line value} :
      Binds table fr (.expr line value) (.expr line value) (fr.read value) [⟨fr.scope, value⟩]
  | give {fr line value after} (hreturned : KeepsReturned fr.returned after) :
      Binds table fr (.give line (some value)) (.give line (some value))
        { fr.read value with returned := after } [⟨fr.scope, value⟩]
  | bare {fr line after} (hreturned : KeepsReturned fr.returned after) :
      Binds table fr (.give line none) (.give line none) { fr with returned := after } []
  | share {fr line names}
      (hnames : ∀ name ∈ names, fr.scope.isLocal name = false ∧
        ∃ kind, fr.scope.meaning name = .outer kind) :
      Binds table fr (.global line names) (.global line names) (fr.share names) []
  | inert {fr stmt} (hstmt : stmt.isInert = true) : Binds table fr stmt stmt fr []

/-- The same for the statements of a block, one after the other. -/
inductive BindsAll (table : CallTable) :
    Frame → List Stmt → List Stmt → Frame → List Reading → Prop
  | nil {fr} : BindsAll table fr [] [] fr []
  | cons {fr stmt stmts stmt' stmts' fr₁ fr₂ r₁ r₂} (hhead : Binds table fr stmt stmt' fr₁ r₁)
      (htail : BindsAll table fr₁ stmts stmts' fr₂ r₂) :
      BindsAll table fr (stmt :: stmts) (stmt' :: stmts') fr₂ (r₁ ++ r₂)

end

section Rules

variable {c : Callees} {returns : Option Kind}

theorem Assignable.writable {fr : Frame} {name : String} (h : Assignable c fr name) :
    fr.Writable c.table name := ⟨h.unknown, h.noLoopVar⟩

theorem Returned.keeps {before after : Option Kind} {kind : Kind}
    (h : Returned returns before kind after) : KeepsReturned before after := by
  intro known hknown
  cases h with
  | annotated => exact hknown
  | first => cases hknown
  | again => exact hknown

/-- The names in the bounds of a loop, each of which has a kind. -/
theorem knows_of_bounds {scope : Scope} {bounds : Bounds} (h : ∀ e ∈ bounds.exprs, ∃ kind,
    HasKind c (scope.kind? c.table) e kind ∧ kind.isInteger = true) :
    scope.Knows c.table (Expr.varsAll bounds.exprs) := by
  intro x hx
  obtain ⟨e, he, hx⟩ := Expr.mem_varsAll.mp hx
  obtain ⟨_, hkind, _⟩ := h e he
  exact hkind.known hx

mutual

/-- A statement that the rules resolve binds names as these rules say. -/
theorem Resolves.binds {fr fr' : Frame} {stmt stmt' : Stmt} {readings : List Reading}
    (h : Resolves c returns fr stmt stmt' fr' readings) :
    Binds c.table fr stmt stmt' fr' readings := by
  cases h with
  | again hvalue hname hbody hbound =>
    exact .again hname.writable hbody hbound (Kind.not_list_of_isScalar hvalue.isScalar)
  | first _ hname hfree _ hdepth => exact .first _ hname.writable hfree hdepth
  | hoist _ hname hfree _ hdepth => exact .hoist _ hname.writable hfree hdepth
  | element hbody => exact .element hbody
  | conditional _ _ hthen helse => exact .conditional hthen.binds helse.binds
  | loopAgain hbounds hvar hbound hloop =>
    exact .loopAgain (knows_of_bounds hbounds) hvar hbound hloop.binds
  | loopFirst hbounds hvar hfree hloop =>
    exact .loopFirst (knows_of_bounds hbounds) hvar hfree hloop.binds
  | call | expr => exact .expr
  | give _ hreturned => exact .give hreturned.keeps
  | bare hreturned => exact .bare hreturned.keeps
  | share hnames => exact .share hnames
  | inert hstmt => exact .inert hstmt

theorem ResolvesAll.binds {fr fr' : Frame} {stmts stmts' : List Stmt} {readings : List Reading}
    (h : ResolvesAll c returns fr stmts stmts' fr' readings) :
    BindsAll c.table fr stmts stmts' fr' readings := by
  cases h with
  | nil => exact .nil
  | cons hhead htail => exact .cons hhead.binds htail.binds

end

end Rules

end Sketchwright.Inference
