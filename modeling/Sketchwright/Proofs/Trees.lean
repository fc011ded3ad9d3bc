import Sketchwright.Program

/-! Induction over statements and over expressions, and the parts of an expression: the variables
that it reads and the calls in it. -/

namespace Sketchwright

namespace Stmt

/-- Statements that end with their line. -/
def isSimple : Stmt → Bool
  | .assign .. | .expr .. | .give .. | .global .. | .pass _ | .stop _ | .skip _ => true
  | .comment _ .block _ => true
  | _ => false

def hasBody : Stmt → Bool
  | .function .. | .conditional .. | .loop .. => true
  | _ => false

/-- A property of statements holds of all of them if the statements with blocks inherit it from
those in their blocks and the others have it. -/
@[elab_as_elim]
theorem induct {motive : Stmt → Prop}
    (function : ∀ line head signature hoisted body, (∀ stmt ∈ body, motive stmt) →
      motive (.function line head signature hoisted body))
    (conditional : ∀ line condition thenBody elseBody, (∀ stmt ∈ thenBody, motive stmt) →
      (∀ stmt ∈ elseBody, motive stmt) → motive (.conditional line condition thenBody elseBody))
    (loop : ∀ line var bounds binding body, (∀ stmt ∈ body, motive stmt) →
      motive (.loop line var bounds binding body))
    (plain : ∀ stmt, stmt.hasBody = false → motive stmt) : ∀ stmt, motive stmt :=
  @Stmt.rec motive (fun stmts => ∀ stmt ∈ stmts, motive stmt) function
    (fun _ _ _ _ _ => plain _ rfl)
    conditional loop (fun _ _ => plain _ rfl) (fun _ _ => plain _ rfl) (fun _ _ => plain _ rfl)
    (fun _ _ _ => plain _ rfl) (fun _ => plain _ rfl) (fun _ => plain _ rfl) (fun _ => plain _ rfl)
    (fun _ => plain _ rfl) (List.forall_mem_nil _) fun _ _ h hs => List.forall_mem_cons.mpr ⟨h, hs⟩

end Stmt

namespace Expr

/-- A property of expressions holds of all of them if each form of expression inherits it from its
parts. -/
@[elab_as_elim, induction_eliminator]
theorem induct {motive : Expr → Prop} (literal : ∀ value, motive (.literal value))
    (name : ∀ id, motive (.name id))
    (unary : ∀ sign operand, motive operand → motive (.unary sign operand))
    (binary : ∀ left op right, motive left → motive right → motive (.binary left op right))
    (call : ∀ callee args, (∀ arg ∈ args, motive arg) → motive (.call callee args))
    (index : ∀ list position, motive position → motive (.index list position))
    (list : ∀ items, (∀ item ∈ items, motive item) → motive (.list items)) : ∀ e, motive e :=
  @Expr.rec motive (fun es => ∀ e ∈ es, motive e) literal name unary binary call index list
    (List.forall_mem_nil _) fun _ _ he hes => List.forall_mem_cons.mpr ⟨he, hes⟩

mutual

/-- The variables that an expression reads, in the order of reading. -/
def vars : Expr → List String
  | .literal _ => []
  | .name id => [id]
  | .unary _ operand => operand.vars
  | .binary left _ right => left.vars ++ right.vars
  | .call _ args => varsAll args
  | .index base position => base :: position.vars
  | .list items => varsAll items

def varsAll : List Expr → List String
  | [] => []
  | e :: es => e.vars ++ varsAll es

end

mutual

/-- The calls in an expression, each with its arguments. -/
def calls : Expr → List (String × List Expr)
  | .literal _ | .name _ => []
  | .unary _ operand => operand.calls
  | .binary left _ right => left.calls ++ right.calls
  | .call callee args => (callee, args) :: callsAll args
  | .index _ position => position.calls
  | .list items => callsAll items

def callsAll : List Expr → List (String × List Expr)
  | [] => []
  | e :: es => e.calls ++ callsAll es

end

mutual

/-- An expression and the expressions in it. -/
def parts : Expr → List Expr
  | .literal value => [.literal value]
  | .name id => [.name id]
  | .unary sign operand => .unary sign operand :: operand.parts
  | .binary left op right => .binary left op right :: (left.parts ++ right.parts)
  | .call callee args => .call callee args :: partsAll args
  | .index base position => .index base position :: position.parts
  | .list items => .list items :: partsAll items

def partsAll : List Expr → List Expr
  | [] => []
  | e :: es => e.parts ++ partsAll es

end

theorem mem_varsAll {es : List Expr} {x : String} :
    x ∈ varsAll es ↔ ∃ e ∈ es, x ∈ e.vars := by
  induction es with
  | nil => simp [varsAll]
  | cons e es ih => simp [varsAll, ih]

theorem mem_callsAll {es : List Expr} {site : String × List Expr} :
    site ∈ callsAll es ↔ ∃ e ∈ es, site ∈ e.calls := by
  induction es with
  | nil => simp [callsAll]
  | cons e es ih => simp [callsAll, ih]

theorem mem_partsAll {es : List Expr} {part : Expr} :
    part ∈ partsAll es ↔ ∃ e ∈ es, part ∈ e.parts := by
  induction es with
  | nil => simp [partsAll]
  | cons e es ih => simp [partsAll, ih]

/-- A call reads no other variables than the expression that it stands in. -/
theorem vars_of_mem_calls {e arg : Expr} {callee : String} {args : List Expr}
    (hcall : (callee, args) ∈ e.calls) (harg : arg ∈ args) : arg.vars ⊆ e.vars := by
  have hall : ∀ {es : List Expr}, (∀ e ∈ es, (callee, args) ∈ e.calls → arg.vars ⊆ e.vars) →
      (callee, args) ∈ callsAll es → arg.vars ⊆ varsAll es := by
    intro es ih hmem x hx
    obtain ⟨e, he, hmem⟩ := mem_callsAll.mp hmem
    exact mem_varsAll.mpr ⟨e, he, ih e he hmem hx⟩
  induction e with
  | literal value => cases hcall
  | name id => cases hcall
  | unary sign operand ih => exact ih hcall
  | binary left op right ihl ihr =>
    rcases List.mem_append.mp hcall with hcall | hcall
    · exact List.subset_append_of_subset_left _ (ihl hcall)
    · exact List.subset_append_of_subset_right _ (ihr hcall)
  | call f es ih =>
    rcases List.mem_cons.mp hcall with heq | hcall
    · cases heq
      exact fun x hx => mem_varsAll.mpr ⟨arg, harg, hx⟩
    · exact hall ih hcall
  | index list position ih => exact List.subset_cons_of_subset _ (ih hcall)
  | list items ih => exact hall ih hcall

end Expr

end Sketchwright
