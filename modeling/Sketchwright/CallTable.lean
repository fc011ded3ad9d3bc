import Sketchwright.Config

/-! The calls and constants of the runtime. A table starts with the built-in ones, and configuration
can only append names that it does not have yet. -/

namespace Sketchwright

/-- How a sketch writes a call. -/
inductive CallForm where
  | same
  | rename (target : String)
  /-- Every argument is printed by a call of its own, with blanks between them. -/
  | print
  /-- The number of items of a list. -/
  | listLength
  /-- Only the header of a counted loop may hold such a call. -/
  | loopRange
  /-- A conversion to the kind of the result. -/
  | cast
  deriving DecidableEq, Repr, Inhabited

/-- The kind of a result. -/
inductive Returns where
  | void
  | fixed (kind : Kind)
  /-- The widest of the numeric arguments. -/
  | promoted
  deriving DecidableEq, Repr, Inhabited

structure CallRule where
  name : String
  form : CallForm
  returns : Returns
  /-- The number of arguments, for calls that have one. -/
  arity : Option Nat
  deriving DecidableEq, Repr, Inhabited

structure CallTable where
  calls : List CallRule
  constants : List (String × Kind)
  deriving DecidableEq, Repr

namespace CallTable

def builtinCalls : List CallRule := [
  ⟨"print", .print, .void, none⟩,
  ⟨"range", .loopRange, .void, none⟩,
  ⟨"len", .listLength, .fixed .int, some 1⟩,
  ⟨"int", .cast, .fixed .int, some 1⟩,
  ⟨"float", .cast, .fixed .float, some 1⟩,
  ⟨"bool", .cast, .fixed .bool, some 1⟩,
  ⟨"str", .cast, .fixed .str, some 1⟩,
  ⟨"abs", .same, .promoted, some 1⟩,
  ⟨"min", .same, .promoted, some 2⟩,
  ⟨"max", .same, .promoted, some 2⟩,
  ⟨"constrain", .same, .promoted, some 3⟩,
  ⟨"map", .same, .fixed .long, some 5⟩,
  ⟨"random", .same, .fixed .long, none⟩,
  ⟨"millis", .same, .fixed .unsignedLong, some 0⟩,
  ⟨"micros", .same, .fixed .unsignedLong, some 0⟩,
  ⟨"analogRead", .same, .fixed .int, some 1⟩,
  ⟨"digitalRead", .same, .fixed .int, some 1⟩,
  ⟨"pinMode", .same, .void, some 2⟩,
  ⟨"digitalWrite", .same, .void, some 2⟩,
  ⟨"analogWrite", .same, .void, some 2⟩,
  ⟨"delay", .same, .void, some 1⟩,
  ⟨"delayMicroseconds", .same, .void, some 1⟩,
  ⟨"tone", .same, .void, none⟩,
  ⟨"noTone", .same, .void, some 1⟩,
  ⟨"Serial.begin", .same, .void, some 1⟩,
  ⟨"Serial.print", .same, .void, none⟩,
  ⟨"Serial.println", .same, .void, none⟩,
  ⟨"Serial.available", .same, .fixed .int, some 0⟩,
  ⟨"Serial.read", .same, .fixed .int, some 0⟩]

def builtinConstants : List String :=
  ["HIGH", "LOW", "INPUT", "OUTPUT", "INPUT_PULLUP", "LED_BUILTIN", "A0", "A1", "A2", "A3", "A4",
    "A5", "A6", "A7"]

def builtin : CallTable := ⟨builtinCalls, builtinConstants.map fun name => (name, .int)⟩

def call? (table : CallTable) (name : String) : Option CallRule :=
  table.calls.find? (·.name == name)

def constant? (table : CallTable) (name : String) : Option Kind :=
  table.constants.lookup name

def isKnown (table : CallTable) (name : String) : Bool :=
  (table.call? name).isSome || (table.constant? name).isSome

/-- The rule of a configured call. -/
def ruleOf (entry : CallEntry) : Except ConfigError CallRule := do
  let returns ← match entry.returns with
    | none | some .void => pure Returns.void
    | some kind =>
      if kind.isScalar then pure (.fixed kind) else throw (.unsupportedKind entry.name kind)
  let form := match entry.target with
    | some target => if target = entry.name then .same else .rename target
    | none => .same
  return ⟨entry.name, form, returns, none⟩

def addCall (table : CallTable) (entry : CallEntry) : Except ConfigError CallTable := do
  if table.isKnown entry.name then throw (.duplicateName entry.name)
  let rule ← ruleOf entry
  return { table with calls := table.calls ++ [rule] }

def addConstant (table : CallTable) (entry : ConstantEntry) : Except ConfigError CallTable := do
  if table.isKnown entry.name then throw (.duplicateName entry.name)
  if !entry.kind.isScalar then throw (.unsupportedKind entry.name entry.kind)
  return { table with constants := table.constants ++ [(entry.name, entry.kind)] }

/-- Adds entries until one is refused: the table so far, and the refusal. -/
def addAll {α : Type} (add : CallTable → α → Except ConfigError CallTable) (table : CallTable) :
    List α → CallTable × Option ConfigError
  | [] => (table, none)
  | entry :: entries =>
    match add table entry with
    | .ok table => addAll add table entries
    | .error refusal => (table, some refusal)

/-- Adds calls and then constants. The entries before a refused one stay. -/
def extend (table : CallTable) (calls : List CallEntry) (constants : List ConstantEntry) :
    CallTable × Option ConfigError :=
  match table.addAll addCall calls with
  | (table, some refusal) => (table, some refusal)
  | (table, none) => table.addAll addConstant constants

/-- The table of a configuration. -/
def ofConfig (config : Config) : Except ConfigError CallTable :=
  match builtin.extend config.calls config.constants with
  | (table, none) => .ok table
  | (_, some refusal) => .error refusal

end CallTable

end Sketchwright
