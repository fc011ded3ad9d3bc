import Sketchwright.Yaml.Scalar.Block
import Sketchwright.Yaml.Scalar.Plain
import Sketchwright.Yaml.Scalar.Quoted
import Sketchwright.Yaml.Token

/-! The tokens of a YAML text: its marks, names and scalars, and what its indentation stands for. A
key needs no mark before it. So the lexer remembers where a key may have started, and puts the mark
in there when it comes to a value. -/

namespace Sketchwright.Yaml

/-- Where a key may have started. -/
structure KeyStart where
  /-- Tokens before it. -/
  number : Nat
  place : Place
  /-- Nothing but a key can stand there. -/
  required : Bool
  deriving DecidableEq, Repr

/-- The longest key, in characters. -/
def longestKey : Nat := 1024

/-- A key stands in one line with its colon, and is not too long. -/
def KeyStart.isPast (p : Place) (k : KeyStart) : Bool :=
  k.place.line < p.line || k.place.index + longestKey < p.index

/-- What is left to read, and how the text so far is laid out. -/
structure Lexer where
  cursor : Cursor
  /-- Columns of the open block collections, innermost first. -/
  indents : List Nat
  /-- Where a key of the innermost collection may have started. -/
  key : Option KeyStart
  /-- The same for the collections around the open flow collections, innermost first. -/
  outerKeys : List (Option KeyStart)
  /-- A key may start here. -/
  mayStart : Bool
  tokens : Array Token
  deriving Repr

namespace Lexer

def start (text : List Char) : Lexer := ⟨.start text, [], none, [], true, #[]⟩

def inFlow (s : Lexer) : Bool := !s.outerKeys.isEmpty

/-- The least column inside the innermost block collection. -/
def floor (s : Lexer) : Nat :=
  match s.indents with
  | indent :: _ => indent + 1
  | [] => 0

def column (s : Lexer) : Nat := s.cursor.place.column

def emit (s : Lexer) (t : Token) : Lexer := { s with tokens := s.tokens.push t }

/-- Reads a token of `n` characters. -/
def take (s : Lexer) (t : Token) (n : Nat) : Lexer :=
  { s with cursor := s.cursor.skip n, tokens := s.tokens.push t }

/-! Blanks, line breaks and comments before a token. -/

/-- Skips to the next token. Outside flow collections, a key may start after a line break, and no
tab may stand where a key may start. -/
def skipFrom (inFlow mayStart comment : Bool) (p : Place) : List Char → Cursor × Bool
  | [] => (⟨p, []⟩, mayStart)
  | c :: cs =>
    if isBreak c then skipFrom inFlow (mayStart || !inFlow) false (p.next c) cs
    else if comment then skipFrom inFlow mayStart true (p.next c) cs
    else if c == ' ' || (c == '\t' && (inFlow || !mayStart)) then
      skipFrom inFlow mayStart false (p.next c) cs
    else if c == '#' then skipFrom inFlow mayStart true (p.next c) cs
    else (⟨p, c :: cs⟩, mayStart)

def skip (s : Lexer) : Lexer :=
  let (cursor, mayStart) := skipFrom s.inFlow s.mayStart false s.cursor.place s.cursor.rest
  { s with cursor, mayStart }

/-! Keys. -/

/-- Forgets a start of a key, which must not be one that is required. -/
def forget? : Option KeyStart → Option (Option KeyStart)
  | some k => if k.required then none else some none
  | none => some none

/-- Forgets the starts of keys that are past. -/
def forgetPast? (s : Lexer) : Option Lexer := do
  let update (key : Option KeyStart) : Option (Option KeyStart) :=
    if key.any (KeyStart.isPast s.cursor.place) then forget? key else some key
  return { s with key := ← update s.key, outerKeys := ← s.outerKeys.mapM update }

/-- Goes on without the start of a key. -/
def dropKey? (s : Lexer) (mayStart : Bool) : Option Lexer := do
  return { s with key := ← forget? s.key, mayStart }

/-- Remembers that a key may start here. -/
def saveKey? (s : Lexer) : Option Lexer :=
  if s.mayStart then do
    let required := !s.inFlow && s.indents.head? == some s.column
    let _ ← forget? s.key
    return { s with key := some ⟨s.tokens.size, s.cursor.place, required⟩ }
  else some s

/-! Indentation. -/

/-- Opens a block collection whose column is `column` with the token `t`, before the token `number`,
unless one is open already. -/
def indentTo (s : Lexer) (column number : Nat) (t : Token) : Lexer :=
  if s.inFlow || column < s.floor then s
  else
    { s with indents := column :: s.indents, tokens := s.tokens.insertIdxIfInBounds number t }

/-- Closes the block collections that are open, as long as they satisfy `p`. -/
def closeBlocks (s : Lexer) (p : Nat → Bool) : Lexer :=
  if s.inFlow then s
  else
    let closed := (s.indents.takeWhile p).map fun _ => Token.blockEnd
    { s with indents := s.indents.dropWhile p, tokens := s.tokens ++ closed }

/-- Closes all block collections, before a mark of a document or the end of the text. -/
def closeAll? (s : Lexer) : Option Lexer := (s.closeBlocks fun _ => true).dropKey? false

/-! Tokens. -/

def directive? (s : Lexer) : Option Lexer := do
  let s ← s.closeAll?
  let (directive, cursor) ← Yaml.directive? s.cursor
  return { s.emit (.directive directive) with cursor }

def documentMark? (s : Lexer) (t : Token) : Option Lexer := do
  return (← s.closeAll?).take t 3

def openFlow? (s : Lexer) (t : Token) : Option Lexer := do
  let s ← s.saveKey?
  return { s.take t 1 with key := none, outerKeys := s.key :: s.outerKeys, mayStart := true }

def closeFlow? (s : Lexer) (t : Token) : Option Lexer := do
  let s := (← s.dropKey? false).take t 1
  match s.outerKeys with
  | key :: outerKeys => return { s with key, outerKeys }
  | [] => return s

def comma? (s : Lexer) : Option Lexer := do
  return (← s.dropKey? true).take .comma 1

/-- Opens a block collection at a mark, which may stand only where a key may start. -/
def indentAtMark? (s : Lexer) (t : Token) : Option Lexer :=
  if s.inFlow then some s
  else if s.mayStart then some (s.indentTo s.column s.tokens.size t)
  else none

def item? (s : Lexer) : Option Lexer := do
  return (← (← s.indentAtMark? .blockSequence).dropKey? true).take .item 1

def key? (s : Lexer) : Option Lexer := do
  return (← (← s.indentAtMark? .blockMapping).dropKey? (!s.inFlow)).take .key 1

/-- Reads the mark of a value, and puts in that of its key if it has none. -/
def value? (s : Lexer) : Option Lexer := do
  match s.key with
  | some k =>
    let s := { s with tokens := s.tokens.insertIdxIfInBounds k.number .key }
    let s := s.indentTo k.place.column k.number .blockMapping
    return { s with key := none, mayStart := false }.take .value 1
  | none =>
    let s ← s.indentAtMark? .blockMapping
    return { s with mayStart := !s.inFlow }.take .value 1

/-- Reads something that a key may start with. -/
def word? (s : Lexer) (t : Token) (cursor : Cursor) (mayStart : Bool) : Option Lexer := do
  let s ← s.saveKey?
  return { s.emit t with cursor, mayStart }

def blockScalar? (s : Lexer) (folded : Bool) : Option Lexer := do
  let s ← s.dropKey? true
  let (text, cursor) ← Yaml.block? folded s.floor s.cursor
  return { s.emit (.scalar (if folded then .folded else .literal) text) with cursor }

def quoted? (s : Lexer) : Option Lexer := do
  let scalar ← Yaml.quoted? s.cursor
  s.word? (.scalar .quoted scalar.text) scalar.stop false

def plain? (s : Lexer) : Option Lexer := do
  let scalar ← Yaml.plain? s.inFlow s.floor s.cursor
  s.word? (.scalar .plain scalar.text) scalar.stop scalar.broken

/-- Reads the token that starts here. -/
def token? (s : Lexer) : Option Lexer :=
  match s.cursor.rest with
  | [] => none
  | c :: cs =>
    if c == '%' && s.column == 0 then s.directive?
    else if isDocumentMark s.cursor.place (c :: cs) then
      s.documentMark? (if c == '-' then .documentStart else .documentEnd)
    else if c == '[' then s.openFlow? .flowSequence
    else if c == '\x7b' then s.openFlow? .flowMapping
    else if c == ']' then s.closeFlow? .flowSequenceEnd
    else if c == '\x7d' then s.closeFlow? .flowMappingEnd
    else if c == ',' then s.comma?
    else if c == '-' && endsWord cs then s.item?
    else if c == '?' && (s.inFlow || endsWord cs) then s.key?
    else if c == ':' && (s.inFlow || endsWord cs) then s.value?
    else if c == '*' then do
      let (name, cursor) ← anchorName? s.cursor
      s.word? (.alias name) cursor false
    else if c == '&' then do
      let (name, cursor) ← anchorName? s.cursor
      s.word? (.anchor name) cursor false
    else if c == '!' then do
      let (tag, cursor) ← tag? s.inFlow s.cursor
      s.word? (.tag tag) cursor false
    else if (c == '|' || c == '>') && !s.inFlow then s.blockScalar? (c == '>')
    else if c == '\'' || c == '"' then s.quoted?
    else if startsPlain s.inFlow (c :: cs) then s.plain?
    else none

/-- Reads the tokens up to the end of a text of `length` characters. A token that takes up no
character is refused, so the reader always comes to an end. -/
def run (length : Nat) (s : Lexer) : Option (List Token) :=
  match s.skip.forgetPast? with
  | none => none
  | some next =>
    let next := next.closeBlocks (next.column < ·)
    if next.cursor.rest.isEmpty then next.closeAll?.map (·.tokens.toList)
    else
      match next.token? with
      | none => none
      | some next =>
        if _h : s.cursor.place.index < next.cursor.place.index ∧
            next.cursor.place.index ≤ length then
          run length next
        else none
termination_by length - s.cursor.place.index

end Lexer

/-- The tokens of a text. -/
def Token.ofText? (text : String) : Option (List Token) :=
  let cs := unifyBreaks text.toList
  if text.toList.all isAllowed then Lexer.run cs.length (.start cs) else none

end Sketchwright.Yaml
