import Sketchwright.Yaml.Cursor

/-! Blanks and line breaks inside a scalar that is written over several lines. What they say is
collected with the latest character first. -/

namespace Sketchwright.Yaml

/-- What stands between two words of a scalar. -/
inductive Gap where
  | blanks (read : List Char)
  /-- Line breaks: the first one, unless it is escaped, and the further ones. -/
  | breaks (first : Option Char) (more : List Char)
  deriving Repr

namespace Gap

def empty : Gap := .blanks []

def isEmpty : Gap → Bool
  | .blanks read => read.isEmpty
  | .breaks .. => false

def isBroken : Gap → Bool
  | .blanks _ => false
  | .breaks .. => true

/-- Adds a blank or a line break. Blanks count only before the first break. -/
def push (c : Char) : Gap → Gap
  | .blanks read => if isBreak c then .breaks (some c) [] else .blanks (c :: read)
  | .breaks first more => if isBreak c then .breaks first (c :: more) else .breaks first more

/-- How a gap reads: a line feed alone is a blank, and before further breaks it is nothing. -/
def text : Gap → List Char
  | .blanks read => read
  | .breaks (some '\n') [] => [' ']
  | .breaks (some '\n') more => more
  | .breaks first more => more ++ first.toList

end Gap

end Sketchwright.Yaml
