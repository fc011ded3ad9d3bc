import Sketchwright.Proofs.Bodies

/-! The shape of programs that come from a text: what the grammar makes sure of and inference relies
on. -/

namespace Sketchwright

def Stmt.isAssign : Stmt → Bool
  | .assign .. => true
  | _ => false

def Stmt.isFunction : Stmt → Bool
  | .function .. => true
  | _ => false

/-- Annotations name scalar kinds, parameters have different names, and the functions that the
runtime calls neither take nor give anything. -/
structure FunctionHead.WellFormed (head : FunctionHead) : Prop where
  nodup : (head.params.map Param.name).Nodup
  params : ∀ param ∈ head.params, ∀ kind, param.kind = some kind → kind.isScalar = true
  returns : ∀ kind, head.returns = some kind → Inference.Returnable kind
  entry : head.isEntry = true → head.params = [] ∧ ∀ kind, head.returns = some kind → kind = .void

/-- A statement that may stand outside functions, with no function inside a function. -/
inductive Stmt.WellFormed : Stmt → Prop
  | function {line head signature hoisted body} (hhead : head.WellFormed)
      (hbody : arePlain body = true) : WellFormed (.function line head signature hoisted body)
  | assign {line target value declared binding} :
      WellFormed (.assign line target value declared binding)
  | inert {stmt} (hlevel : stmt.isModuleLevel = true) (hstmt : stmt.isInert = true) :
      WellFormed stmt

theorem Stmt.WellFormed.isModuleLevel {stmt : Stmt} (h : stmt.WellFormed) :
    stmt.isModuleLevel = true := by
  cases h with
  | function | assign => rfl
  | inert h => exact h

/-- Functions and assignments stand in the order of their lines. -/
structure Program.WellFormed (p : Program) : Prop where
  header : ∀ stmt ∈ p.header, stmt.isTrivia = true
  statements : ∀ stmt ∈ p.statements, stmt.WellFormed
  lines : (p.statements.filter (!·.isTrivia)).Pairwise (·.line ≤ ·.line)

end Sketchwright
