import Sketchwright.Expr

/-! Comments and literals as a sketch writes them. -/

namespace Sketchwright.Sketch

/-- The text with a blank inside each mark that would end a block comment. -/
def spaceMarks : List Char → List Char
  | '*' :: '/' :: cs => '*' :: ' ' :: '/' :: spaceMarks cs
  | c :: cs => c :: spaceMarks cs
  | [] => []

def blockComment (text : String) : String :=
  "/*" ++ String.ofList (spaceMarks text.toList) ++ "*/"

def endsInBackslash (text : String) : Bool := text.toList.getLast? == some '\\'

/-- A comment up to the end of the line. A backslash at its end would join the next line to it, so
such a comment is written in block form. -/
def lineComment (text : String) : String :=
  if endsInBackslash text then blockComment text else "//" ++ text

/-- The contents of a string literal: escapes stay, bare quotes and control characters get one. -/
def escape : List Char → List Char
  | '\\' :: c :: cs => '\\' :: c :: escape cs
  | '"' :: cs => '\\' :: '"' :: escape cs
  | '\n' :: cs => '\\' :: 'n' :: escape cs
  | '\r' :: cs => '\\' :: 'r' :: escape cs
  | '\t' :: cs => '\\' :: 't' :: escape cs
  | c :: cs => c :: escape cs
  | [] => []

def stringLiteral (text : String) : String :=
  "\"" ++ String.ofList (escape text.toList) ++ "\""

def floatLiteral (text : String) : String := String.ofList (text.toList.filter (· != '_'))

def literal : Literal → String
  | .int value => toString value
  | .float text => floatLiteral text
  | .str text => stringLiteral text
  | .bool true => "true"
  | .bool false => "false"

end Sketchwright.Sketch
