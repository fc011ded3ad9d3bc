import Sketchwright.Kind

/-! What a user may configure: the layout of the sketch, and further calls and constants of the
runtime. -/

namespace Sketchwright

/-- The type of fractions in a sketch. -/
inductive FloatType where
  | float
  | double
  deriving DecidableEq, Repr, Inhabited

namespace FloatType

def text : FloatType → String
  | .float => "float"
  | .double => "double"

def ofText? : String → Option FloatType
  | "float" => some .float
  | "double" => some .double
  | _ => none

end FloatType

/-- A runtime call: the name that the sketch calls, if it differs, and the kind of the result, if
there is one. -/
structure CallEntry where
  name : String
  target : Option String
  returns : Option Kind
  deriving DecidableEq, Repr, Inhabited

structure ConstantEntry where
  name : String
  kind : Kind
  deriving DecidableEq, Repr, Inhabited

structure Config where
  /-- Blanks for each level of blocks. -/
  indentWidth : Nat
  floatType : FloatType
  calls : List CallEntry
  constants : List ConstantEntry
  deriving DecidableEq, Repr

instance : Inhabited Config := ⟨⟨4, .float, [], []⟩⟩

/-- Why a configuration is refused. -/
inductive ConfigError where
  | duplicateName (name : String)
  | unsupportedKind (name : String) (kind : Kind)
  | zeroIndentWidth
  deriving DecidableEq, Repr

namespace ConfigError

def message : ConfigError → String
  | .duplicateName name =>
    "'" ++ name ++ "' is already a known call or constant; configuration can only add names"
  | .unsupportedKind name kind =>
    "'" ++ name ++ "' cannot use kind " ++ kind.text ++ "; only scalar kinds are allowed"
  | .zeroIndentWidth => "indent_width must be at least 1"

def family : ConfigError → String
  | .duplicateName _ => "duplicate_name"
  | .unsupportedKind .. => "unsupported_kind"
  | .zeroIndentWidth => "zero_indent_width"

end ConfigError

def Config.validate (config : Config) : Except ConfigError Unit :=
  if config.indentWidth = 0 then .error .zeroIndentWidth else .ok ()

end Sketchwright
