import Sketchwright.Kind

/-! The names that a function body sees. A local name hides a global one unless the body declares it
`global`, and a body sees only the globals that are assigned above the function. -/

namespace Sketchwright.Inference

structure Variable where
  kind : Kind
  /-- The line of the first assignment. -/
  line : Nat
  deriving DecidableEq, Repr, Inhabited

/-- Variables by name; of two with one name the first counts. -/
abbrev Variables := List (String × Variable)

/-- What a name refers to. -/
inductive Meaning where
  | own (kind : Kind)
  | outer (kind : Kind)
  /-- A global that is assigned below the function, in that line. -/
  | later (line : Nat)
  | missing
  deriving DecidableEq, Repr

structure Scope where
  /-- The variables of the module; none for the module itself. -/
  globals : Option Variables
  /-- The line of the function. -/
  line : Nat
  locals : Variables
  /-- Names declared `global`. -/
  shared : List String
  /-- Globals read so far. -/
  seen : List String
  deriving DecidableEq, Repr, Inhabited

namespace Scope

def module : Scope := ⟨none, 0, [], [], []⟩

def function (globals : Variables) (line : Nat) : Scope := ⟨some globals, line, [], [], []⟩

def isModule (s : Scope) : Bool := s.globals.isNone

def isShared (s : Scope) (name : String) : Bool := s.shared.contains name

def isSeen (s : Scope) (name : String) : Bool := s.seen.contains name

def isLocal (s : Scope) (name : String) : Bool := (s.locals.lookup name).isSome

/-- The local variable of that name, unless the name is shared. -/
def local? (s : Scope) (name : String) : Option Variable :=
  if s.isShared name then none else s.locals.lookup name

def global? (s : Scope) (name : String) : Option Variable :=
  s.globals.bind (·.lookup name)

def meaning (s : Scope) (name : String) : Meaning :=
  match s.local? name with
  | some v => .own v.kind
  | none =>
    match s.global? name with
    | some v => if v.line < s.line then .outer v.kind else .later v.line
    | none => .missing

def declare (s : Scope) (name : String) (kind : Kind) (line : Nat) : Scope :=
  { s with locals := (name, ⟨kind, line⟩) :: s.locals }

def remove (s : Scope) (name : String) : Scope :=
  { s with locals := s.locals.filter (·.1 != name) }

def share (s : Scope) (name : String) : Scope := { s with shared := name :: s.shared }

def markSeen (s : Scope) (name : String) : Scope := { s with seen := name :: s.seen }

end Scope

end Sketchwright.Inference
