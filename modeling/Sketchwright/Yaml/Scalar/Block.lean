import Sketchwright.Yaml.Cursor

/-! Block scalars: indented lines after a mark, kept as they are or folded. -/

namespace Sketchwright.Yaml

/-- What becomes of the line breaks at the end of a block scalar. -/
inductive Chomping where
  | strip
  | clip
  | keep
  deriving DecidableEq, Repr

/-- How the lines of a block scalar are read. -/
structure BlockHeader where
  chomping : Chomping
  /-- The indent of the lines beyond that of the block around them. -/
  width : Option Nat
  rest : List Char
  deriving Repr

def takeChomping : List Char → Option Chomping × List Char
  | '-' :: cs => (some .strip, cs)
  | '+' :: cs => (some .keep, cs)
  | cs => (none, cs)

def takeWidth : List Char → Option Nat × List Char
  | c :: cs => if c.isDigit then (some (c.toNat - '0'.toNat), cs) else (none, c :: cs)
  | [] => (none, [])

/-- The marks after the first one of a block scalar, in either order. -/
def blockHeader (cs : List Char) : BlockHeader :=
  match takeChomping cs with
  | (some chomping, cs) => let (width, cs) := takeWidth cs; ⟨chomping, width, cs⟩
  | (none, cs) =>
    let (width, cs) := takeWidth cs
    let (chomping, cs) := takeChomping cs
    ⟨chomping.getD .clip, width, cs⟩

/-- The lines of a block scalar so far. -/
structure BlockLines where
  read : List Char
  /-- The break after the latest line that is not blank. -/
  first : Option Char
  /-- The breaks of the blank lines after it. -/
  more : List Char
  /-- The latest line starts with a blank. -/
  indented : Bool
  deriving Repr

namespace BlockLines

/-- Joins a line that starts with `c`. Folding turns a line feed between two lines into a blank, or
into nothing where blank lines stand between them, unless one of the two starts with a blank. -/
def join (folded : Bool) (c : Char) (b : BlockLines) : BlockLines :=
  let between :=
    if folded && b.first == some '\n' && !b.indented && !isBlank c then
      if b.more.isEmpty then [' '] else []
    else b.first.toList
  ⟨c :: (b.more ++ between ++ b.read), none, [], isBlank c⟩

def text (chomping : Chomping) (b : BlockLines) : String :=
  let tail := match chomping with
    | .strip => []
    | .clip => b.first.toList
    | .keep => b.more ++ b.first.toList
  String.ofList (tail ++ b.read).reverse

end BlockLines

/-- What a block scalar says, and where it ends. -/
structure BlockScalar where
  lines : BlockLines
  stop : Cursor
  deriving Repr

/-- Reads the lines of a block scalar that are indented by `indent`. `inLine` says that the margin
of the current line is behind. A tab may not stand in a margin. -/
def linesFrom (folded : Bool) (indent : Nat) (inLine : Bool) (b : BlockLines) (p : Place) :
    List Char → Option BlockScalar
  | [] => some ⟨b, ⟨p, []⟩⟩
  | c :: cs =>
    if inLine then
      if isBreak c then linesFrom folded indent false { b with first := some c } (p.next c) cs
      else linesFrom folded indent true { b with read := c :: b.read } (p.next c) cs
    else if isBreak c then
      linesFrom folded indent false { b with more := c :: b.more } (p.next c) cs
    else if indent ≤ p.column then linesFrom folded indent true (b.join folded c) (p.next c) cs
    else if c == ' ' then linesFrom folded indent false b (p.next c) cs
    else if c == '\t' then none
    else some ⟨b, ⟨p, c :: cs⟩⟩

/-- The blank lines before the first line of a block scalar. -/
structure Margin where
  widest : Nat
  breaks : List Char
  stop : Cursor
  deriving Repr

/-- Reads up to the first character that is no blank; no tab may come before it. -/
def marginFrom (widest : Nat) (breaks : List Char) (p : Place) : List Char → Option Margin
  | [] => some ⟨widest, breaks, ⟨p, []⟩⟩
  | c :: cs =>
    if c == ' ' then marginFrom (max widest (p.column + 1)) breaks (p.next c) cs
    else if c == '\t' then none
    else if isBreak c then marginFrom widest (c :: breaks) (p.next c) cs
    else some ⟨widest, breaks, ⟨p, c :: cs⟩⟩

/-- The block scalar here, in a block whose lines are indented by at least `floor`. -/
def block? (folded : Bool) (floor : Nat) (k : Cursor) : Option (String × Cursor) := do
  let k := k.skip 1
  let header := blockHeader k.rest
  let k ← (k.upTo header.rest).endLine?
  let scalar ← match header.width with
    | some 0 => none
    | some n => linesFrom folded (floor - 1 + n) false ⟨[], none, [], false⟩ k.place k.rest
    | none => do
      let m ← marginFrom k.place.column [] k.place k.rest
      let indent := max (max m.widest floor) 1
      linesFrom folded indent false ⟨[], none, m.breaks, false⟩ m.stop.place m.stop.rest
  return (scalar.lines.text header.chomping, scalar.stop)

end Sketchwright.Yaml
