import Sketchwright.Proofs.Resolution

/-! A resolved body as the sketch reads it, with block scopes. A declaration reaches from its place
to the end of its block, the variable of a loop to the end of the loop; hoisted names and parameters
stand before the body, and globals before them in the order of the source. -/

namespace Sketchwright

/-- The declarations in scope, innermost first. -/
abbrev Context := List (String × Kind)

namespace Context

/-- The kind of a name in scope; constants of the runtime stand behind all declarations. -/
def kind? (table : CallTable) (context : Context) : Names :=
  fun name => (context.lookup name).or (table.constant? name)

/-- The declarations in scope after a statement. -/
def after (context : Context) : Stmt → Context
  | .assign _ (.name id) _ _ (.declare kind) => (id, kind) :: context
  | _ => context

def afterAll (context : Context) (stmts : List Stmt) : Context := stmts.foldl after context

/-- The declarations in scope in the body of a loop. -/
def inLoop (context : Context) (var : String) : Binding → Context
  | .declare kind => (var, kind) :: context
  | .reassign | .unresolved => context

/-- The declarations in scope where the body of a function starts. -/
def inFunction (context : Context) (head : FunctionHead) (signature : Signature)
    (hoisted : Context) : Context :=
  (head.params.map Param.name).zip signature.params ++ hoisted ++ context

end Context

/-- What a statement declares for the statements after it. -/
def Stmt.declared? : Stmt → Option (String × Kind)
  | .assign _ (.name id) _ _ (.declare kind) => some (id, kind)
  | _ => none

/-- What the statements of a block declare in it, outside its inner blocks. -/
def declaredIn (stmts : List Stmt) : Context := stmts.filterMap Stmt.declared?

/-- A statement at its place, with the declarations that precede it. -/
structure Occurrence where
  context : Context
  stmt : Stmt

mutual

/-- A statement and the statements in its blocks, in the order of the text. -/
def Stmt.occurrences (context : Context) : Stmt → List Occurrence
  | .conditional line condition thenBody elseBody =>
    ⟨context, .conditional line condition thenBody elseBody⟩ ::
      (occurrencesIn context thenBody ++ occurrencesIn context elseBody)
  | .loop line var bounds binding body =>
    ⟨context, .loop line var bounds binding body⟩ ::
      occurrencesIn (context.inLoop var binding) body
  | stmt => [⟨context, stmt⟩]

def occurrencesIn (context : Context) : List Stmt → List Occurrence
  | [] => []
  | stmt :: stmts => stmt.occurrences context ++ occurrencesIn (context.after stmt) stmts

end

/-- An expression of a statement, or a name that the statement writes. -/
structure Site where
  context : Context
  /-- The name whose declaration the expression stands in; there it refers to itself. -/
  declaring : Option String
  expr : Expr

/-- The kind of what a name refers to. A declaration does not reach into its own expressions as one
that precedes them. -/
def Site.kind? (table : CallTable) (site : Site) : Names :=
  fun name => if site.declaring = some name then none else site.context.kind? table name

/-- The name that a binding declares. -/
def Binding.declares? (name : String) : Binding → Option String
  | .declare _ => some name
  | .reassign | .unresolved => none

/-- What a statement itself reads and writes, in order. -/
def Occurrence.sites (o : Occurrence) : List Site :=
  match o.stmt with
  | .assign _ (.name id) value _ binding =>
    [⟨o.context, binding.declares? id, value⟩, ⟨o.context.after o.stmt, none, .name id⟩]
  | .assign _ (.element list position) value _ _ =>
    [⟨o.context, none, .index list position⟩, ⟨o.context, none, value⟩]
  | .conditional _ condition _ _ => [⟨o.context, none, condition⟩]
  | .loop _ var bounds binding _ =>
    bounds.exprs.map (⟨o.context, binding.declares? var, ·⟩) ++
      [⟨o.context.inLoop var binding, none, .name var⟩]
  | .expr _ value => [⟨o.context, none, value⟩]
  | .give _ (some value) => [⟨o.context, none, value⟩]
  | _ => []

/-- The final result of a function: its kind, and whether the kind is annotated. -/
structure Result where
  annotated : Bool
  kind : Kind

/-- A statement of a function with this result whose expressions have kinds that fit. -/
inductive Stmt.Typed (c : Callees) (result : Result) (context : Context) : Stmt → Prop
  | declare {line name value declared found kind}
      (hvalue : Inference.Assigned c (context.kind? c.table) value found)
      (haccepts : kind.accepts found = true) (hname : c.table.isKnown name = false) :
      Typed c result context (.assign line (.name name) value declared (.declare kind))
  | assign {line name value declared found kind}
      (hvalue : HasKind c (context.kind? c.table) value found)
      (htarget : context.lookup name = some kind) (haccepts : kind.accepts found = true) :
      Typed c result context (.assign line (.name name) value declared .reassign)
  | element {line list position value declared element n index found}
      (hlist : context.kind? c.table list = some (.list element n))
      (hposition : HasKind c (context.kind? c.table) position index)
      (hindex : index.isInteger = true) (hvalue : HasKind c (context.kind? c.table) value found)
      (haccepts : element.accepts found = true) :
      Typed c result context (.assign line (.element list position) value declared .reassign)
  | conditional {line condition thenBody elseBody kind}
      (hcondition : HasKind c (context.kind? c.table) condition kind) (hkind : kind ≠ .str) :
      Typed c result context (.conditional line condition thenBody elseBody)
  | loop {line var bounds binding body}
      (hbounds : ∀ e ∈ bounds.exprs, ∃ kind, HasKind c (context.kind? c.table) e kind ∧
        kind.isInteger = true)
      (hvar : binding = .declare .int ∨ binding = .reassign ∧ context.lookup var = some .int) :
      Typed c result context (.loop line var bounds binding body)
  | call {line callee args} (hcall : CallStands c (context.kind? c.table) callee args) :
      Typed c result context (.expr line (.call callee args))
  | expr {line value kind} (hvalue : HasKind c (context.kind? c.table) value kind) :
      Typed c result context (.expr line value)
  | give {line value kind} (hvalue : HasKind c (context.kind? c.table) value kind)
      (hresult : if result.annotated then result.kind.accepts kind = true else kind = result.kind)
      (hvoid : result.kind ≠ .void) : Typed c result context (.give line (some value))
  | bare {line} (hvoid : result.kind = .void) : Typed c result context (.give line none)
  | share {line names} : Typed c result context (.global line names)
  | inert {stmt} (hstmt : stmt.isInert = true) : Typed c result context stmt

/-- A function definition, with the declarations that precede it. -/
structure Definition where
  context : Context
  line : Nat
  head : FunctionHead
  signature : Signature
  hoisted : Context
  body : List Stmt

namespace Definition

def stmt (d : Definition) : Stmt := .function d.line d.head (some d.signature) d.hoisted d.body

/-- The statements of the body at their places. -/
def occurrences (d : Definition) : List Occurrence :=
  occurrencesIn (d.context.inFunction d.head d.signature d.hoisted) d.body

/-- The return kind that the header fixes. -/
def returns (d : Definition) : Option Kind := if d.head.isEntry then some .void else d.head.returns

def result (d : Definition) : Result := ⟨d.returns.isSome, d.signature.returns⟩

/-- The names that are declared in the scope of the body: parameters, names that inner blocks assign
first, and declarations outside inner blocks. -/
def names (d : Definition) : List String :=
  d.head.params.map Param.name ++ d.hoisted.map Prod.fst ++ (declaredIn d.body).map Prod.fst

end Definition

def Occurrence.definition? (o : Occurrence) : Option Definition :=
  match o.stmt with
  | .function line head (some signature) hoisted body =>
    some ⟨o.context, line, head, signature, hoisted, body⟩
  | _ => none

theorem Occurrence.definition?_eq_some {o : Occurrence} {d : Definition} :
    o.definition? = some d ↔ o.context = d.context ∧ o.stmt = d.stmt := by
  obtain ⟨context, stmt⟩ := o
  unfold Occurrence.definition? Definition.stmt
  split
  · next line head signature hoisted body hstmt =>
    dsimp only at hstmt
    subst hstmt
    constructor
    · rintro ⟨⟩
      exact ⟨rfl, rfl⟩
    · rintro ⟨rfl, hstmt⟩
      cases hstmt
      rfl
  · next hnot =>
    refine ⟨fun h => (nomatch h), ?_⟩
    rintro ⟨_, hstmt⟩
    exact absurd hstmt (hnot _ _ _ _ _)

namespace Program

/-- The statements outside functions at their places, function definitions among them. -/
def occurrences (p : Program) : List Occurrence := occurrencesIn [] p.statements

def definitions (p : Program) : List Definition := p.occurrences.filterMap Occurrence.definition?

/-- The signatures that the definitions state. -/
def signatures (p : Program) : Inference.Signatures := fun name => p.statements.findSome? fun
  | .function _ head signature _ _ => if head.name = name then signature else none
  | _ => none

def callees (p : Program) (table : CallTable) : Callees := ⟨table, p.signatures⟩

end Program

end Sketchwright
