import Sketchwright.Kind

/-! What a run reports of its progress, in the order in which it happens. -/

namespace Sketchwright

inductive Event where
  | mixedIndentation (line : Nat)
  | tokenized (tokens lines : Nat)
  | parsed (header statements : Nat)
  | parameterKind (function param : String) (kind : Kind) (line : Nat)
  | unknownCall (callee : String) (line : Nat)
  | signature (function : String) (params : List Kind) (returns : Kind) (hoisted : Nat)
  | missingEntryPoint (name : String)
  | inferred (globals functions : Nat)
  | generated (bytes : Nat)
  | translated (inputLines outputLines : Nat)
  deriving DecidableEq, Repr

namespace Event

inductive Level where
  | debug
  | warn
  deriving DecidableEq, Repr

/-- The value of a field. -/
inductive Value where
  | number (n : Nat)
  | text (s : String)
  deriving DecidableEq, Repr

def level : Event → Level
  | .mixedIndentation _ | .missingEntryPoint _ => .warn
  | _ => .debug

def message : Event → String
  | .mixedIndentation _ =>
    "mixed tabs and spaces in indentation; block nesting may be misread"
  | .tokenized .. => "tokenized source"
  | .parsed .. => "parsed program"
  | .parameterKind .. => "parameter kind from call site"
  | .unknownCall .. => "passing unknown call through"
  | .signature .. => "inferred signature"
  | .missingEntryPoint name =>
    "program has no " ++ name ++ "() function; the sketch will not link"
  | .inferred .. => "inferred program"
  | .generated _ => "generated output"
  | .translated .. => "translated program"

/-- The tag of a kind, as lists of kinds show it. -/
def kindTag : Kind → String
  | .int => "Int"
  | .long => "Long"
  | .unsignedLong => "UnsignedLong"
  | .float => "Float"
  | .bool => "Bool"
  | .str => "Str"
  | .list element length =>
    "Array \x7b element: " ++ kindTag element ++ ", len: " ++ toString length ++ " \x7d"
  | .void => "Void"

def kindTags (kinds : List Kind) : String := "[" ++ ", ".intercalate (kinds.map kindTag) ++ "]"

def fields : Event → List (String × Value)
  | .mixedIndentation line => [("line", .number line)]
  | .tokenized tokens lines => [("tokens", .number tokens), ("lines", .number lines)]
  | .parsed header statements =>
    [("header", .number header), ("statements", .number statements)]
  | .parameterKind function param kind line =>
    [("function", .text function), ("param", .text param), ("kind", .text kind.text),
      ("line", .number line)]
  | .unknownCall callee line => [("callee", .text callee), ("line", .number line)]
  | .signature function params returns hoisted =>
    [("function", .text function), ("params", .text (kindTags params)),
      ("returns", .text returns.text), ("hoisted", .number hoisted)]
  | .missingEntryPoint _ => []
  | .inferred globals functions => [("globals", .number globals), ("functions", .number functions)]
  | .generated bytes => [("bytes", .number bytes)]
  | .translated inputLines outputLines =>
    [("input_lines", .number inputLines), ("output_lines", .number outputLines)]

end Event

end Sketchwright
