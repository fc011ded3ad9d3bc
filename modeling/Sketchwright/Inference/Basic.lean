import Sketchwright.CallTable
import Sketchwright.Error
import Sketchwright.Event
import Sketchwright.Inference.Scope
import Sketchwright.Inference.Slots

/-! Inference of one body runs on a state that holds the functions of the program beside the frame
of the body. An attempt may stall for want of a kind that another function has not produced yet;
what it has found out of other functions by then is kept. -/

namespace Sketchwright.Inference

/-- Why an attempt ends early: an error, or a kind that is not known yet, with the error to report
if it never will be. -/
inductive Stall where
  | failed (error : Error)
  | pending (error : Error)
  deriving DecidableEq, Repr

def Stall.error : Stall → Error
  | .failed error | .pending error => error

/-- The body that is being inferred. -/
structure Frame where
  scope : Scope
  /-- Names first assigned inside a block, in order. -/
  hoisted : List (String × Kind)
  /-- Blocks around the current statement. -/
  depth : Nat
  /-- Variables of the loops around the current statement, innermost first. -/
  loopVars : List String
  /-- The kind of the values returned so far. -/
  returned : Option Kind
  deriving DecidableEq, Repr, Inhabited

def Frame.ofScope (scope : Scope) : Frame := ⟨scope, [], 0, [], none⟩

structure State where
  functions : Functions
  frame : Frame
  events : List Event
  deriving DecidableEq, Repr

/-- The function whose body is being inferred. -/
structure Owner where
  name : String
  isEntry : Bool
  /-- The return kind known before the body is read. -/
  returns : Option Kind
  deriving DecidableEq, Repr

structure Env where
  table : CallTable
  /-- None for the assignments of the module. -/
  owner : Option Owner

abbrev Infer := ExceptT Stall (StateM State)

def fail {α : Type} (error : Error) : Infer α := throw (.failed error)

def unsupported {α : Type} (line : Nat) (construct : Construct) : Infer α :=
  fail (.unsupported line construct)

def mismatch {α : Type} (line : Nat) (subject : Subject) (expected found : Trait) : Infer α :=
  fail (.mismatch line subject expected found)

def unbound {α : Type} (line : Nat) (name : String) (reason : Unbound) : Infer α :=
  fail (.unbound line name reason)

def internal {α : Type} (line : Nat) (cause : Internal) : Infer α := fail (.internal line cause)

def emit (event : Event) : Infer Unit :=
  modify fun s => { s with events := s.events ++ [event] }

def getScope : Infer Scope := return (← get).frame.scope

def modifyFrame (f : Frame → Frame) : Infer Unit :=
  modify fun s => { s with frame := f s.frame }

def modifyScope (f : Scope → Scope) : Infer Unit :=
  modifyFrame fun frame => { frame with scope := f frame.scope }

/-- The result of an attempt that may have stalled; a failure stays one. -/
def attempt {α : Type} (x : Infer α) : Infer (Except Error α) :=
  tryCatch (.ok <$> x) fun
    | .pending error => return .error error
    | .failed error => fail error

end Sketchwright.Inference
