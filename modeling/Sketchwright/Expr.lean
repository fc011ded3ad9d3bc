import Sketchwright.Kind

/-! Expressions, and the binding strength of their operators. -/

namespace Sketchwright

inductive Literal where
  | int (value : Int)
  /-- A decimal literal as written. -/
  | float (text : String)
  /-- What stands between the quotes, escapes as written. -/
  | str (text : String)
  | bool (value : Bool)
  deriving DecidableEq, Repr, Inhabited

def Literal.kind : Literal → Kind
  | .int _ => .int
  | .float _ => .float
  | .str _ => .str
  | .bool _ => .bool

inductive Sign where
  | minus
  | plus
  deriving DecidableEq, Repr, Inhabited

def Sign.text : Sign → String
  | .minus => "-"
  | .plus => "+"

inductive BinOp where
  | add | sub | mul | div | floorDiv | mod | pow
  | eq | ne | lt | le | gt | ge
  deriving DecidableEq, Repr, Inhabited

namespace BinOp

def text : BinOp → String
  | .add => "+"
  | .sub => "-"
  | .mul => "*"
  | .div => "/"
  | .floorDiv => "//"
  | .mod => "%"
  | .pow => "**"
  | .eq => "=="
  | .ne => "!="
  | .lt => "<"
  | .le => "<="
  | .gt => ">"
  | .ge => ">="

def isComparison : BinOp → Bool
  | .eq | .ne | .lt | .le | .gt | .ge => true
  | _ => false

/-- Binding strength; a sign stands between the products and the power. -/
def strength : BinOp → Nat
  | .eq | .ne | .lt | .le | .gt | .ge => 1
  | .add | .sub => 2
  | .mul | .div | .floorDiv | .mod => 3
  | .pow => 5

end BinOp

inductive Expr where
  | literal (value : Literal)
  | name (id : String)
  | unary (sign : Sign) (operand : Expr)
  | binary (left : Expr) (op : BinOp) (right : Expr)
  /-- The callee is a plain or dotted name. -/
  | call (callee : String) (args : List Expr)
  | index (list : String) (position : Expr)
  | list (items : List Expr)
  deriving Repr, Inhabited, BEq

end Sketchwright
