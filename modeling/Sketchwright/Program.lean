import Sketchwright.Expr

/-! Programs. The tree has slots that start empty and that inference fills: how an assignment or a
loop variable relates to earlier bindings, the signature of a function, and the names that its body
first assigns inside a block. -/

namespace Sketchwright

inductive Binding where
  | unresolved
  /-- The first binding of the name, which declares it. -/
  | declare (kind : Kind)
  | reassign
  deriving DecidableEq, Repr, Inhabited

inductive Target where
  | name (id : String)
  | element (list : String) (position : Expr)
  deriving Repr, Inhabited, BEq

/-- The arguments of a `range` header; a start that is not given is zero. -/
structure Bounds where
  start : Option Expr
  stop : Expr
  step : Int
  deriving Repr, Inhabited, BEq

structure Param where
  name : String
  kind : Option Kind
  deriving DecidableEq, Repr, Inhabited

structure Signature where
  params : List Kind
  returns : Kind
  deriving DecidableEq, Repr, Inhabited

/-- What a function definition says before its body. -/
structure FunctionHead where
  name : String
  params : List Param
  returns : Option Kind
  /-- Called by the runtime itself. -/
  isEntry : Bool
  deriving DecidableEq, Repr, Inhabited

/-- The names that the runtime calls. -/
def entryPoints : List String := ["setup", "loop"]

inductive CommentStyle where
  /-- On a line of its own. -/
  | line
  /-- A string literal that stands alone. -/
  | block
  /-- After a statement or a block header, on its line. -/
  | trailing
  deriving DecidableEq, Repr, Inhabited

inductive Stmt where
  | function (line : Nat) (head : FunctionHead) (signature : Option Signature)
      (hoisted : List (String × Kind)) (body : List Stmt)
  | assign (line : Nat) (target : Target) (value : Expr) (declared : Option Kind)
      (binding : Binding)
  | conditional (line : Nat) (condition : Expr) (thenBody elseBody : List Stmt)
  | loop (line : Nat) (var : String) (bounds : Bounds) (binding : Binding) (body : List Stmt)
  | expr (line : Nat) (value : Expr)
  | give (line : Nat) (value : Option Expr)
  | global (line : Nat) (names : List String)
  | comment (line : Nat) (style : CommentStyle) (text : String)
  | blank (line : Nat)
  | pass (line : Nat)
  | stop (line : Nat)
  | skip (line : Nat)
  deriving Repr, Inhabited, BEq

namespace Stmt

def line : Stmt → Nat
  | .function line .. | .assign line .. | .conditional line .. | .loop line ..
  | .expr line _ | .give line _ | .global line _ | .comment line .. | .blank line | .pass line
  | .stop line | .skip line => line

def isBlank : Stmt → Bool
  | .blank _ => true
  | _ => false

/-- Comments and blank lines. -/
def isTrivia : Stmt → Bool
  | .comment .. | .blank _ => true
  | _ => false

/-- Statements that may stand outside functions. -/
def isModuleLevel : Stmt → Bool
  | .function .. | .assign .. | .comment .. | .blank _ | .pass _ => true
  | _ => false

end Stmt

structure Program where
  /-- Comments and blank lines before the first statement. -/
  header : List Stmt
  statements : List Stmt
  deriving Repr, Inhabited, BEq

end Sketchwright
