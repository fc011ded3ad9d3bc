import Sketchwright.Text.Digits
import Sketchwright.Yaml.Cursor

/-! The names that may stand before a node: tags, anchors and aliases, and the directives that say
what the handles of tags stand for. -/

namespace Sketchwright.Yaml

/-- A tag as it is written: a name after a handle, or a whole name without one. -/
structure Tag where
  handle : String
  name : String
  deriving DecidableEq, Repr

/-- What handles stand for. The first row of a handle counts. -/
abbrev Handles := List (String × String)

def standardHandles : Handles := [("!", "!"), ("!!", "tag:yaml.org,2002:")]

/-- The full name of a tag, unless its handle is not known. -/
def Tag.resolve? (handles : Handles) (tag : Tag) : Option String :=
  if tag.handle.isEmpty then some tag.name
  else (handles.lookup tag.handle).map (· ++ tag.name)

/-- Characters of the names of tags. The marks of flow sequences are part of them only where nothing
else could be meant. -/
def isTagName (withMarks : Bool) (c : Char) : Bool :=
  isName c || ";/?:@&=+$.!~*'()".toList.contains c || (withMarks && ",[]".toList.contains c)

/-- How many octets follow the first octet of a character. -/
def octetsAfter? (octet : Nat) : Option Nat :=
  if octet < 0x80 then some 0
  else if octet < 0xc0 then none
  else if octet < 0xe0 then some 1
  else if octet < 0xf0 then some 2
  else if octet < 0xf8 then some 3
  else none

/-- The character that starts with an octet. All characters beyond ASCII read alike, as
no known name has one. -/
def octetChar (octet : Nat) : Char := if octet < 0x80 then .ofNat octet else '\ufffd'

/-- Reads the name of a tag, in which octets may be written as a percent sign and two digits. `due`
octets of a character are still to come. -/
def tagNameFrom (withMarks : Bool) (due : Nat) (read : List Char) :
    List Char → Option (List Char × List Char)
  | '%' :: a :: b :: cs => do
    let octet ← Text.ofDigits? 16 [a, b]
    if due = 0 then tagNameFrom withMarks (← octetsAfter? octet) (octetChar octet :: read) cs
    else if 0x80 ≤ octet && octet < 0xc0 then tagNameFrom withMarks (due - 1) read cs
    else none
  | c :: cs =>
    if due ≠ 0 || c == '%' then none
    else if isTagName withMarks c then tagNameFrom withMarks 0 (c :: read) cs
    else some (read.reverse, c :: cs)
  | [] => if due = 0 then some (read.reverse, []) else none

/-- A name of which `read` is behind, and what follows it. It ends at a null character. -/
def tagName? (withMarks : Bool) (read cs : List Char) : Option (String × List Char) := do
  let (name, rest) ← tagNameFrom withMarks 0 read.reverse cs
  if name.isEmpty then none else some (String.ofList (name.takeWhile (· != '\x00')), rest)

/-- A tag after its first exclamation mark, and what follows it. -/
def tagFrom? (cs : List Char) : Option (Tag × List Char) :=
  match cs with
  | '<' :: cs => do
    match ← tagName? true [] cs with
    | (name, '>' :: rest) => some (⟨"", name⟩, rest)
    | _ => none
  | cs => do
    let word := cs.takeWhile isName
    match cs.dropWhile isName with
    | '!' :: cs =>
      let (name, rest) ← tagName? false [] cs
      return (⟨String.ofList ('!' :: word ++ ['!']), name⟩, rest)
    | cs =>
      let (name, rest) ← tagName? false ('!' :: word) cs
      let name := String.ofList (name.toList.drop 1)
      return (if name.isEmpty then ⟨"", "!"⟩ else ⟨"!", name⟩, rest)

/-- The tag here. A blank or a line break follows it, or a comma in a flow collection. -/
def tag? (inFlow : Bool) (k : Cursor) : Option (Tag × Cursor) := do
  let (tag, rest) ← tagFrom? (k.rest.drop 1)
  if endsWord rest || (inFlow && rest.head? == some ',') then return (tag, k.upTo rest) else none

/-- The name after the mark of an anchor or alias, which ends where no further name could start. -/
def anchorName? (k : Cursor) : Option (String × Cursor) :=
  let name := (k.rest.drop 1).takeWhile isName
  let rest := (k.rest.drop 1).dropWhile isName
  if !name.isEmpty && (endsWord rest || rest.head?.any "?:,]\x7d%@\x60".toList.contains) then
    some (String.ofList name, k.skip (name.length + 1))
  else none

/-! Directives. -/

inductive Directive where
  /-- The version of the language, which is a known one. -/
  | version
  | handle (handle stands : String)
  deriving DecidableEq, Repr

/-- A number of at most nine digits, and what follows it. -/
def shortNumber? (cs : List Char) : Option (Nat × List Char) := do
  let digits := cs.takeWhile Char.isDigit
  let n ← Text.ofDigits? 10 digits
  if digits.length ≤ 9 then some (n, cs.dropWhile Char.isDigit) else none

/-- A version after its blanks, and what follows it. -/
def version? (cs : List Char) : Option (Directive × List Char) := do
  match ← shortNumber? cs with
  | (1, '.' :: cs) =>
    let (minor, rest) ← shortNumber? cs
    if minor = 1 || minor = 2 then some (.version, rest) else none
  | _ => none

/-- A handle and what it stands for, and what follows them. -/
def handle? : List Char → Option (Directive × List Char)
  | '!' :: cs => do
    let word := cs.takeWhile isName
    let (handle, rest) ← match cs.dropWhile isName with
      | '!' :: rest => some ('!' :: word ++ ['!'], rest)
      | rest => if word.isEmpty then some (['!'], rest) else none
    if rest.head?.any isBlank then
      let (stands, rest) ← tagName? true [] (rest.dropWhile isBlank)
      if endsWord rest then some (.handle (String.ofList handle) stands, rest) else none
    else none
  | _ => none

/-- The directive in this line, and the start of the next line. -/
def directive? (k : Cursor) : Option (Directive × Cursor) := do
  let name := (k.rest.drop 1).takeWhile isName
  let rest := (k.rest.drop 1).dropWhile isName
  if !endsWord rest then none
  let cs := rest.dropWhile isBlank
  let (directive, rest) ←
    if name == "YAML".toList then version? cs
    else if name == "TAG".toList then handle? cs
    else none
  return (directive, ← (k.upTo rest).endLine?)

end Sketchwright.Yaml
