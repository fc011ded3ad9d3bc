/-! Kinds of values. Every binding gets the kind of the first value assigned to it; the numeric
kinds are ordered `int < long < unsigned long < float`, and a wider one accepts a narrower one. -/

namespace Sketchwright

inductive Kind where
  | int
  | long
  | unsignedLong
  | float
  | bool
  | str
  /-- A fixed number of values of one kind. -/
  | list (element : Kind) (length : Nat)
  /-- The result of a call that produces no value. -/
  | void
  deriving DecidableEq, Repr, Inhabited

namespace Kind

/-- Place in the order of numeric kinds. -/
def rank? : Kind → Option Nat
  | .int => some 0
  | .long => some 1
  | .unsignedLong => some 2
  | .float => some 3
  | _ => none

def isNumeric (k : Kind) : Bool := k.rank?.isSome

def isInteger : Kind → Bool
  | .int | .long | .unsignedLong => true
  | _ => false

def isList : Kind → Bool
  | .list _ _ => true
  | _ => false

def isScalar : Kind → Bool
  | .list _ _ | .void => false
  | _ => true

/-- The wider of two numeric kinds. -/
def promote (a b : Kind) : Option Kind := do
  let left ← a.rank?
  let right ← b.rank?
  return if right ≤ left then a else b

/-- A value of kind `found` may initialise a binding of kind `target`. -/
def accepts (target found : Kind) : Bool :=
  target == found ||
    match target.rank?, found.rank? with
    | some t, some f => f ≤ t
    | _, _ => false

/-- The spelling of diagnostics. -/
def text : Kind → String
  | .int => "int"
  | .long => "long"
  | .unsignedLong => "unsigned long"
  | .float => "float"
  | .bool => "bool"
  | .str => "str"
  | .list element length => "list[" ++ element.text ++ "; " ++ toString length ++ "]"
  | .void => "None"

/-- Kinds that an annotation may name. -/
def ofAnnotation? : String → Option Kind
  | "int" => some .int
  | "float" => some .float
  | "bool" => some .bool
  | "str" => some .str
  | _ => none

/-- Kinds that a configuration may name. -/
def ofName? (name : String) : Option Kind :=
  match ofAnnotation? name with
  | some kind => some kind
  | none =>
    if name = "long" then some .long
    else if name = "unsigned long" then some .unsignedLong
    else if name = "void" ∨ name = "None" then some .void
    else none

/-- What is reported of a name that is no kind. -/
def unknownName (name : String) : String := "unknown kind '" ++ name ++ "'"

end Kind

end Sketchwright
