import Sketchwright.Sketch.Text

/-! Lines of a sketch. A line holds code or a comment and ends with the comments that stand after it
in the source. -/

namespace Sketchwright.Sketch

inductive Content where
  | code (text : String)
  /-- A comment on a line of its own. -/
  | comment (text : String)
  /-- A comment in block form, which may run over several lines. -/
  | block (text : String)
  | empty
  deriving DecidableEq, Repr, Inhabited

structure Line where
  /-- Blocks around the line. -/
  depth : Nat
  content : Content
  /-- The texts of the comments at its end. -/
  notes : List String
  deriving DecidableEq, Repr, Inhabited

namespace Content

def text : Content → String
  | .code text => text
  | .comment text => lineComment text
  | .block text => blockComment text
  | .empty => ""

end Content

namespace Line

def margin (width : Nat) (line : Line) : String :=
  match line.content with
  | .empty => ""
  | _ => String.ofList (List.replicate (line.depth * width) ' ')

def notesText (line : Line) : String :=
  String.join (line.notes.map fun note => "  " ++ lineComment note)

/-- The line as it is written, line end included. -/
def render (width : Nat) (line : Line) : String :=
  line.margin width ++ line.content.text ++ line.notesText ++ "\n"

end Line

/-- The lines written so far, the latest first. -/
abbrev Page := List Line

namespace Page

def push (page : Page) (depth : Nat) (content : Content) : Page := ⟨depth, content, []⟩ :: page

def pushCode (page : Page) (depth : Nat) (text : String) : Page := page.push depth (.code text)

def pushCodes (page : Page) (depth : Nat) (texts : List String) : Page :=
  texts.foldl (·.pushCode depth ·) page

/-- Adds a comment to the end of the latest line. -/
def note (page : Page) (text : String) : Page :=
  match page with
  | [] => []
  | line :: lines => { line with notes := line.notes ++ [text] } :: lines

def lines (page : Page) : List Line := page.reverse

def render (width : Nat) (page : Page) : String := String.join (page.lines.map (·.render width))

end Page

end Sketchwright.Sketch
