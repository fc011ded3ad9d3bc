import Sketchwright.Yaml.Scalar.Gap

/-! Plain scalars, which have no marks of their own and end where the text around them goes on. -/

namespace Sketchwright.Yaml

/-- A plain scalar and where it ends. -/
structure PlainScalar where
  text : String
  stop : Cursor
  /-- A line break follows it. -/
  broken : Bool
  deriving Repr

/-- Characters that start no plain scalar. -/
def indicators : List Char :=
  ['-', '?', ':', ',', '[', ']', '\x7b', '\x7d', '#', '&', '*', '!', '|', '>', '\'', '"', '%', '@',
    '\x60']

def startsPlain (inFlow : Bool) : List Char → Bool
  | [] => false
  | c :: cs =>
    !(isSpace c || indicators.contains c) || (c == '-' && !cs.head?.any isBlank) ||
      (!inFlow && (c == '?' || c == ':') && !endsWord cs)

/-- The marks of flow collections, which end a plain scalar in one. -/
def isFlowMark (c : Char) : Bool := [',', '[', ']', '\x7b', '\x7d'].contains c

/-- Whether a plain scalar ends before the character `c`. -/
def endsPlain (inFlow : Bool) (c : Char) (cs : List Char) : Bool :=
  (c == ':' && endsWord cs) || (inFlow && isFlowMark c)

/-- Whether a colon in a flow collection is neither part of a scalar nor the mark of a value. -/
def isStrayColon (c : Char) (cs : List Char) : Bool :=
  c == ':' && cs.head?.any fun d => d == '?' || isFlowMark d

/-- Whether a plain scalar cannot go on in the character `c` after a gap: the line is indented less
than `floor`, or a comment or a mark of a document follows. -/
def endsAfterGap (inFlow : Bool) (floor : Nat) (p : Place) (c : Char) (cs : List Char) : Bool :=
  (!inFlow && p.column < floor) || c == '#' || isDocumentMark p (c :: cs)

/-- Reads a plain scalar of which the characters `read` and then a gap are behind. -/
def plainFrom (inFlow : Bool) (floor : Nat) (read : List Char) (gap : Gap) (p : Place) :
    List Char → Option PlainScalar
  | [] => some ⟨String.ofList read.reverse, ⟨p, []⟩, gap.isBroken⟩
  | c :: cs =>
    if isSpace c then
      if c == '\t' && gap.isBroken && p.column < floor then none
      else plainFrom inFlow floor read (gap.push c) (p.next c) cs
    else if (!gap.isEmpty && endsAfterGap inFlow floor p c cs) || endsPlain inFlow c cs then
      some ⟨String.ofList read.reverse, ⟨p, c :: cs⟩, gap.isBroken⟩
    else if inFlow && isStrayColon c cs then none
    else plainFrom inFlow floor (c :: (gap.text ++ read)) .empty (p.next c) cs

/-- The plain scalar here. -/
def plain? (inFlow : Bool) (floor : Nat) (k : Cursor) : Option PlainScalar :=
  plainFrom inFlow floor [] .empty k.place k.rest

end Sketchwright.Yaml
