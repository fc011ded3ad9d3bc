/-! The characters of a YAML text and the places where they stand. All line breaks but the two
separators are written as line feeds before anything else is read. -/

namespace Sketchwright.Yaml

/-- Characters that a text may hold: no control characters but tabs and line breaks. -/
def isAllowed (c : Char) : Bool :=
  c == '\t' || c == '\n' || c == '\r' || (' ' ≤ c && c ≤ '~') || c == '\u0085' ||
    ('\u00a0' ≤ c && c ≤ '\ufffd') || 0x10000 ≤ c.toNat

def isBlank (c : Char) : Bool := c == ' ' || c == '\t'

def isBreak (c : Char) : Bool := c == '\n' || c == '\u2028' || c == '\u2029'

/-- Characters that stand between words. -/
def isSpace (c : Char) : Bool := isBlank c || isBreak c

/-- Characters of the names of anchors, tags and directives. -/
def isName (c : Char) : Bool := c.isAlphanum || c == '_' || c == '-'

/-- Writes each line break as one character: a line feed, or a separator that stays. -/
def unifyBreaks : List Char → List Char
  | '\r' :: '\n' :: cs => '\n' :: unifyBreaks cs
  | c :: cs => (if c == '\r' || c == '\u0085' then '\n' else c) :: unifyBreaks cs
  | [] => []

/-- Whether a word ends here. -/
def endsWord : List Char → Bool
  | [] => true
  | c :: _ => isSpace c

structure Place where
  /-- Characters before this one. -/
  index : Nat
  line : Nat
  column : Nat
  deriving DecidableEq, Repr, Inhabited

/-- The place after a character. -/
def Place.next (p : Place) (c : Char) : Place :=
  if isBreak c then ⟨p.index + 1, p.line + 1, 0⟩ else ⟨p.index + 1, p.line, p.column + 1⟩

/-- The place after some characters. -/
def Place.after (p : Place) (cs : List Char) : Place := cs.foldl Place.next p

/-- Whether a mark of a document stands here: three dashes or dots at the start of a line. -/
def isDocumentMark (p : Place) (cs : List Char) : Bool :=
  p.column == 0 && match cs with
    | '-' :: '-' :: '-' :: cs | '.' :: '.' :: '.' :: cs => endsWord cs
    | _ => false

structure Cursor where
  place : Place
  rest : List Char
  deriving Repr, Inhabited

namespace Cursor

/-- The start of a text. A byte order mark is skipped, but takes up a column. -/
def start (text : List Char) : Cursor :=
  match text with
  | '\ufeff' :: cs => ⟨⟨1, 0, 1⟩, cs⟩
  | cs => ⟨⟨0, 0, 0⟩, cs⟩

def skip (k : Cursor) (n : Nat) : Cursor := ⟨k.place.after (k.rest.take n), k.rest.drop n⟩

def skipWhile (k : Cursor) (p : Char → Bool) : Cursor :=
  ⟨k.place.after (k.rest.takeWhile p), k.rest.dropWhile p⟩

/-- The place from which only the end `rest` of the text is left. -/
def upTo (k : Cursor) (rest : List Char) : Cursor := k.skip (k.rest.length - rest.length)

/-- Skips blanks, a comment and the end of the line, before which nothing else may stand. -/
def endLine? (k : Cursor) : Option Cursor :=
  let k := k.skipWhile isBlank
  let k := if k.rest.head? == some '#' then k.skipWhile (!isBreak ·) else k
  match k.rest with
  | [] => some k
  | c :: _ => if isBreak c then some (k.skip 1) else none

end Cursor

end Sketchwright.Yaml
