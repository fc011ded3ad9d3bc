import Sketchwright.Program

/-! What is known of the functions of a program. The kinds of parameters and results start with the
annotations and fill up: a slot that holds a kind keeps it. -/

namespace Sketchwright.Inference

/-- The kinds of one function that are known so far. -/
structure Slots where
  name : String
  line : Nat
  params : List (String × Option Kind)
  returns : Option Kind
  deriving DecidableEq, Repr, Inhabited

namespace Slots

def ofHead (line : Nat) (head : FunctionHead) : Slots where
  name := head.name
  line := line
  params := head.params.map fun param => (param.name, param.kind)
  returns := if head.isEntry then some .void else head.returns

/-- The first parameter without a kind. -/
def openParam? (s : Slots) : Option String :=
  (s.params.find? (·.2.isNone)).map (·.1)

/-- The kinds of the parameters that have one. -/
def paramKinds (s : Slots) : List Kind := s.params.filterMap (·.2)

/-- The number of slots without a kind. -/
def unresolved (s : Slots) : Nat :=
  s.params.countP (·.2.isNone) + if s.returns.isNone then 1 else 0

end Slots

/-- The functions of a program, which have different names. -/
abbrev Functions := List Slots

namespace Functions

def find? (fs : Functions) (name : String) : Option Slots :=
  List.find? (·.name == name) fs

def contains (fs : Functions) (name : String) : Bool := (fs.find? name).isSome

/-- Replaces the function of that name. -/
def update (fs : Functions) (name : String) (f : Slots → Slots) : Functions :=
  fs.map fun s => if s.name == name then f s else s

def unresolved (fs : Functions) : Nat := fs.foldr (·.unresolved + ·) 0

end Functions

end Sketchwright.Inference
