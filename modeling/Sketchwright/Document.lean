import Sketchwright.Text.Digits

/-! Documents as trees of nodes, whatever they were written in. A scalar has no type of its own: the
field that it stands in decides how it is read. Nodes that are anchored may stand in further places,
where an alias names them. -/

namespace Sketchwright

/-- How a scalar is written. -/
inductive ScalarStyle where
  | plain
  | quoted
  | literal
  | folded
  deriving DecidableEq, Repr, Inhabited

inductive Node where
  /-- The value of a field that is given and has none. -/
  | null
  | bool (value : Bool)
  /-- A number, which is none where it is no whole number from zero on. -/
  | number (value : Option Nat)
  | text (value : String)
  /-- Values that may also be the fields of a record in their order. -/
  | tuple (items : List Node)
  | scalar (style : ScalarStyle) (tag : Option String) (text : String)
  | sequence (items : List Node)
  | mapping (entries : List (Node × Node))
  /-- The anchored node with this number. -/
  | alias (number : Nat)
  deriving Repr, Inhabited

structure Document where
  root : Node
  /-- The anchored nodes. Of those with the same number the first one counts. -/
  anchored : List (Nat × Node)
  deriving Repr, Inhabited

/-- The node that an alias stands for, and any other node itself. -/
def Document.follow (doc : Document) : Node → Node
  | .alias n => (doc.anchored.lookup n).getD (.alias n)
  | node => node

namespace Node

/-- What stands where a value is left out. -/
def blank : Node := .scalar .plain none ""

def integerTag : String := "tag:yaml.org,2002:int"

def nullTag : String := "tag:yaml.org,2002:null"

/-- The words for a value that is missing. -/
def nullWords : List String := ["null", "Null", "NULL", "~"]

/-- Whole numbers below this one are read. -/
def numberLimit : Nat := Nat.pow 2 64

def digits? (radix : Nat) (cs : List Char) : Option Nat :=
  match Text.ofDigits? radix cs with
  | some n => if n < numberLimit then some n else none
  | none => none

/-- A whole number: digits without leading zeros, or a radix mark and digits, perhaps after a plus
sign. -/
def wholeNumber? (text : String) : Option Nat :=
  let cs := match text.toList with
    | '+' :: cs => cs
    | cs => cs
  match cs with
  | '0' :: 'x' :: cs => digits? 16 cs
  | '0' :: 'o' :: cs => digits? 8 cs
  | '0' :: 'b' :: cs => digits? 2 cs
  | ['0'] => some 0
  | '0' :: _ => none
  | cs => digits? 10 cs

def count? : Node → Option Nat
  | .number (some n) => if n < numberLimit then some n else none
  | .scalar .plain _ s => wholeNumber? s
  | .scalar .literal (some tag) s => if tag = integerTag then wholeNumber? s else none
  | _ => none

def string? : Node → Option String
  | .text s | .scalar _ _ s => some s
  | _ => none

/-- A value that may be missing. -/
def optional? {α : Type} (read : Node → Option α) (node : Node) : Option (Option α) :=
  match node with
  | .null => some none
  | .scalar .plain none s =>
    if s = "" || nullWords.contains s then some none else (read node).map some
  | .scalar .plain (some tag) s =>
    if tag = nullTag then if nullWords.contains s then some none else none
    else (read node).map some
  | node => (read node).map some

/-- A name out of a few: a text, or the tag of a scalar that holds nothing else. -/
def choice? : Node → Option String
  | .text s => some s
  | .mapping [(.text name, .null)] => some name
  | .scalar style (some tag) s =>
    match tag.toList with
    | '!' :: name =>
      if style = .plain && (s = "" || nullWords.contains s) then
        some (if name.isEmpty then tag else String.ofList name)
      else none
    | _ => some s
  | .scalar _ none s => some s
  | _ => none

end Node

namespace Document

/-- The items of a list. -/
def items? (doc : Document) : Node → Option (List Node)
  | .tuple items | .sequence items => some (items.map doc.follow)
  | .scalar .plain _ "" => some []
  | _ => none

/-- The fields of a record, which have different names out of `known`. -/
def fields? (doc : Document) (known : List String) : Node → Option (List (String × Node))
  | .mapping entries => do
    let names ← entries.mapM fun entry => (doc.follow entry.1).string?
    if names.all known.contains && names.eraseDups.length == names.length then
      some (names.zip (entries.map fun entry => doc.follow entry.2))
    else none
  | .tuple items =>
    if items.length ≤ known.length then some (known.zip (items.map doc.follow)) else none
  | .scalar .plain _ "" => some []
  | _ => none

end Document

end Sketchwright
