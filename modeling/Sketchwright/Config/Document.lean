import Sketchwright.Config
import Sketchwright.Document

/-! The configuration that a document describes. Every field has a standard value, but for the name
of an entry; fields that are not known are refused. -/

namespace Sketchwright.Config

/-- A field, or the value that stands for it when it is missing. -/
def field? {α : Type} (fields : List (String × Node)) (name : String) (standard : α)
    (read : Node → Option α) : Option α :=
  match fields.lookup name with
  | some node => read node
  | none => some standard

def required? {α : Type} (fields : List (String × Node)) (name : String)
    (read : Node → Option α) : Option α :=
  (fields.lookup name).bind read

def kind? (node : Node) : Option Kind := node.string?.bind Kind.ofName?

def callEntry? (doc : Document) (node : Node) : Option CallEntry := do
  let fields ← doc.fields? ["name", "target", "returns"] node
  let name ← required? fields "name" Node.string?
  let target ← field? fields "target" none (Node.optional? Node.string?)
  let returns ← field? fields "returns" none (Node.optional? kind?)
  return ⟨name, target, returns⟩

def constantEntry? (doc : Document) (node : Node) : Option ConstantEntry := do
  let fields ← doc.fields? ["name", "kind"] node
  let name ← required? fields "name" Node.string?
  let kind ← field? fields "kind" .int kind?
  return ⟨name, kind⟩

/-- The items of a list, each read in the same way. -/
def list? {α : Type} (doc : Document) (read : Node → Option α) (node : Node) :
    Option (List α) := do
  let items ← doc.items? node
  items.mapM read

/-- The configuration that a document describes. -/
def ofDocument? (doc : Document) : Option Config := do
  let fields ← doc.fields? ["indent_width", "float_type", "calls", "constants"] doc.root
  let standard : Config := default
  let indentWidth ← field? fields "indent_width" standard.indentWidth Node.count?
  let floatType ← field? fields "float_type" standard.floatType fun node =>
    node.choice?.bind FloatType.ofText?
  let calls ← field? fields "calls" standard.calls (list? doc <| callEntry? doc)
  let constants ← field? fields "constants" standard.constants (list? doc <| constantEntry? doc)
  return ⟨indentWidth, floatType, calls, constants⟩

end Sketchwright.Config
