import Sketchwright.Text.CharClass

/-! Physical lines and trimming. A line ends at a line feed, or at a carriage return and line feed
together; a text that ends with a line break has no further empty line. -/

namespace Sketchwright.Text

def trimStart (cs : List Char) : List Char := cs.dropWhile isBlank

def trimEnd (cs : List Char) : List Char := (cs.reverse.dropWhile isBlank).reverse

def trim (cs : List Char) : List Char := trimEnd (trimStart cs)

/-- The carriage return of a line break, when `line`, held backwards, ends with one. -/
def dropReturn : List Char → List Char
  | '\r' :: line => line
  | line => line

/-- Lines of the characters after `line`, the part of the current line already read, backwards. -/
def linesFrom (line : List Char) : List Char → List (List Char)
  | [] => if line.isEmpty then [] else [line.reverse]
  | '\n' :: cs => (dropReturn line).reverse :: linesFrom [] cs
  | c :: cs => linesFrom (c :: line) cs

def lines (text : String) : List (List Char) := linesFrom [] text.toList

/-- The trimmed line of that number, counted from one; empty where there is none. -/
def lineText (source : List (List Char)) (number : Nat) : String :=
  String.ofList (trim ((source[number - 1]?).getD []))

theorem trimEnd_isPrefix (cs : List Char) : trimEnd cs <+: cs := by
  have h := List.dropWhile_suffix (p := isBlank) (l := cs.reverse)
  simpa [trimEnd] using List.reverse_prefix.mpr h

end Sketchwright.Text
