import Sketchwright.CallTable
import Sketchwright.Error
import Sketchwright.Sketch.Text

/-! Expressions as a sketch writes them. Parentheses stand where the operators alone would group
otherwise, and around a sign's operand unless it is an atom. -/

namespace Sketchwright.Sketch

/-- What the text of a sketch depends on besides the program. -/
structure Style where
  table : CallTable
  floatType : FloatType

abbrev Writing (α : Type) := Except Error α

def signStrength : Nat := 4

/-- The strength of names, literals and calls. -/
def atomStrength : Nat := 6

/-- How tightly the text of an expression holds together; a power is written as a call. -/
def strength : Expr → Nat
  | .binary _ op _ => if op = .pow then atomStrength else op.strength
  | .unary _ _ => signStrength
  | _ => atomStrength

def parenthesized (needed : Bool) (text : String) : String :=
  if needed then "(" ++ text ++ ")" else text

/-- Whether an operand of `op` is set apart. Comparisons never chain, and a right operand of equal
strength keeps its grouping. -/
def needsParens (operand : Expr) (op : BinOp) (isRight : Bool) : Bool :=
  strength operand < op.strength ||
    strength operand == op.strength && (isRight || op.strength == 1)

def isStringLiteral : Expr → Bool
  | .literal (.str _) => true
  | _ => false

/-- A bare string literal on the left of `+` or a comparison would be a pointer. -/
def wrapsLeft (left : Expr) (op : BinOp) : Bool :=
  isStringLiteral left && (op == .add || op.isComparison)

def leftText (left : Expr) (op : BinOp) (text : String) : String :=
  if wrapsLeft left op then "String(" ++ text ++ ")"
  else parenthesized (needsParens left op false) text

def symbol (op : BinOp) : String :=
  match op with
  | .floorDiv => "/"
  | op => op.text

def typeName (style : Style) (kind : Kind) (line : Nat) : Writing String :=
  match kind with
  | .int => .ok "int"
  | .long => .ok "long"
  | .unsignedLong => .ok "unsigned long"
  | .float => .ok style.floatType.text
  | .bool => .ok "bool"
  | .str => .ok "String"
  | .void => .ok "void"
  | .list _ _ => .error (.internal line (.kindWithoutName kind))

def callText (callee : String) (args : List String) : String :=
  callee ++ "(" ++ ", ".intercalate args ++ ")"

def lengthText (list : String) : String := "(sizeof(" ++ list ++ ") / sizeof(" ++ list ++ "[0]))"

/-- A call, given the texts of its arguments. -/
def call (style : Style) (line : Nat) (callee : String) (args : List Expr)
    (texts : Writing (List String)) : Writing String :=
  match style.table.call? callee with
  | none => return callText callee (← texts)
  | some rule =>
    match rule.form with
    | .same => return callText callee (← texts)
    | .rename target => return callText target (← texts)
    | .listLength =>
      match args with
      | [.name list] => .ok (lengthText list)
      | _ => .error (.internal line .lengthOfValue)
    | .cast =>
      match rule.returns with
      | .fixed kind => do
        let name ← typeName style kind line
        return callText name (← texts)
      | _ => .error (.internal line (.castWithoutKind callee))
    | .print => .error (.internal line .printAsValue)
    | .loopRange => .error (.internal line .rangeAsValue)

mutual

def expression (style : Style) (line : Nat) : Expr → Writing String
  | .literal value => .ok (literal value)
  | .name id => .ok id
  | .unary sign operand => do
    let text ← expression style line operand
    return sign.text ++ parenthesized (strength operand ≤ signStrength) text
  | .binary left op right => do
    let first ← expression style line left
    let second ← expression style line right
    if op = .pow then return callText "pow" [first, second]
    return leftText left op first ++ " " ++ symbol op ++ " " ++
      parenthesized (needsParens right op true) second
  | .call callee args => call style line callee args (expressions style line args)
  | .index list position => do
    let text ← expression style line position
    return list ++ "[" ++ text ++ "]"
  | .list _ => .error (.internal line .listAsValue)

def expressions (style : Style) (line : Nat) : List Expr → Writing (List String)
  | [] => .ok []
  | e :: es => do
    let text ← expression style line e
    return text :: (← expressions style line es)

end

end Sketchwright.Sketch
