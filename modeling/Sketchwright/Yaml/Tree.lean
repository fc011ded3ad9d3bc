import Sketchwright.Yaml.Collection

/-! The document that a list of tokens writes. The collections that are open wait on a stack, and
each token adds to the innermost one. -/

namespace Sketchwright.Yaml

/-- What was read before a node that belongs to it. -/
structure Properties where
  /-- Anchors before this one. -/
  anchor : Option Nat
  tag : Option String
  deriving Repr

def Properties.empty : Properties := ⟨none, none⟩

def Properties.isEmpty (p : Properties) : Bool := p.anchor.isNone && p.tag.isNone

structure Builder where
  handles : Handles
  /-- The open collections, innermost first. -/
  stack : List (Properties × Open)
  /-- Of the node that comes next. -/
  properties : Properties
  root : Option Node
  /-- The number of each name that was given to a node. -/
  names : List (String × Nat)
  /-- The numbers of all anchors, the latest first. -/
  numbers : List Nat
  /-- Finished nodes, by how many anchors came before theirs. -/
  anchored : List (Nat × Node)
  deriving Repr

namespace Builder

def start (handles : Handles) : Builder := ⟨handles, [], .empty, none, [], [], []⟩

/-- Puts a finished node where it belongs. -/
def put? (b : Builder) (p : Properties) (node : Node) : Option Builder :=
  let b := match p.anchor with
    | some n => { b with anchored := (n, node) :: b.anchored }
    | none => b
  match b.stack with
  | (q, top) :: stack => do return { b with stack := (q, ← top.put? node) :: stack }
  | [] => if b.root.isNone then some { b with root := some node } else none

/-- Gives properties without a node a blank one. -/
def flush? (b : Builder) : Option Builder :=
  if b.properties.isEmpty then some b
  else { b with properties := .empty }.put? b.properties (.scalar .plain b.properties.tag "")

def push (b : Builder) (top : Open) : Builder :=
  { b with stack := (b.properties, top) :: b.stack, properties := .empty }

def scalar? (b : Builder) (style : ScalarStyle) (text : String) : Option Builder :=
  let tag := if b.properties.tag == some "!" then none else b.properties.tag
  { b with properties := .empty }.put? b.properties (.scalar style tag text)

/-- Names the next node. It gets the number of the names that are known, and the name goes over to
it. -/
def anchor? (b : Builder) (name : String) : Option Builder :=
  if b.properties.anchor.isSome then none
  else
    let number := b.names.length
    some { b with
      properties := { b.properties with anchor := some b.numbers.length }
      names := (name, number) :: b.names.filter (·.1 != name)
      numbers := number :: b.numbers }

def alias? (b : Builder) (name : String) : Option Builder :=
  if b.properties.isEmpty then do b.put? .empty (.alias (← b.names.lookup name)) else none

def tag? (b : Builder) (tag : Tag) : Option Builder :=
  if b.properties.tag.isSome then none
  else do
    let name ← tag.resolve? b.handles
    return { b with properties := { b.properties with tag := some name } }

/-- Changes the innermost collection. -/
def modify? (b : Builder) (f : Open → Option Open) : Option Builder :=
  match b.stack with
  | (p, top) :: stack => do return { b with stack := (p, ← f top) :: stack }
  | [] => none

/-- Reads the mark of an item, which may be the first of items at the column of their mapping. -/
def item? (b : Builder) : Option Builder :=
  if b.stack.head?.any (·.2.takesItems) then some (b.push (.blockItems false [] true))
  else do (← b.flush?).modify? Open.item?

/-- Closes items that stand at the column of their mapping. -/
def closeItems? (b : Builder) : Option Builder :=
  match b.stack with
  | (p, .blockItems false items due) :: stack =>
    { b with stack }.put? p (.sequence (Open.settle items due).reverse)
  | _ => some b

/-- Reads a mark inside a collection that is no mark of an item. -/
def mark? (b : Builder) (f : Open → Option Open) : Option Builder := do
  (← (← b.flush?).closeItems?).modify? f

def close? (b : Builder) (t : Token) : Option Builder := do
  let b ← (← b.flush?).closeItems?
  match b.stack with
  | (p, top) :: stack => Builder.put? { b with stack } p (← top.close? t)
  | [] => none

def step? (b : Builder) (t : Token) : Option Builder :=
  match t with
  | .blockSequence => some (b.push (.blockItems true [] false))
  | .blockMapping => some (b.push (.blockEntries [] .idle))
  | .flowSequence => some (b.push (.flowItems [] true .idle))
  | .flowMapping => some (b.push (.flowEntries [] true .idle))
  | .blockEnd | .flowSequenceEnd | .flowMappingEnd => b.close? t
  | .item => b.item?
  | .comma => b.mark? Open.comma?
  | .key => b.mark? Open.key?
  | .value => b.mark? Open.value?
  | .alias name => b.alias? name
  | .anchor name => b.anchor? name
  | .tag tag => b.tag? tag
  | .scalar style text => b.scalar? style text
  | .directive _ | .documentStart | .documentEnd => none

/-- The nodes that aliases with a number may stand for, those whose anchor came last first. -/
def shared (b : Builder) : List (Nat × Node) :=
  (b.numbers.zip (List.range b.numbers.length).reverse).filterMap fun (number, position) =>
    (b.anchored.lookup position).map (number, ·)

/-- The document once all tokens are read. -/
def finish? (b : Builder) : Option Document := do
  let b ← b.flush?
  if b.stack.isEmpty then return ⟨← b.root, b.shared⟩ else none

end Builder

/-- What the directives of a document say about handles. Nothing may be said twice. -/
def handlesOf? (directives : List Directive) : Option Handles :=
  let handles := directives.filterMap fun
    | .version => none
    | .handle handle stands => some (handle, stands)
  let names := handles.map (·.1)
  if directives.count .version ≤ 1 && names.eraseDups.length == names.length then
    some (handles ++ standardHandles)
  else none

/-- The directives at the start of some tokens, and what follows them. -/
def splitDirectives : List Token → List Directive × List Token
  | .directive d :: ts => let (ds, ts) := splitDirectives ts; (d :: ds, ts)
  | ts => ([], ts)

/-- The document of some tokens, which is the only one. One without a mark at its start has no
directives, and is not blank unless there are no tokens at all. -/
def document? (ts : List Token) : Option Document := do
  let (directives, ts) := splitDirectives ts
  let handles ← handlesOf? directives
  let body (ts : List Token) := (ts.reverse.dropWhile (· == .documentEnd)).reverse
  let nodes (ts : List Token) := do (← ts.foldlM Builder.step? (.start handles)).finish?
  match ts with
  | .documentStart :: ts =>
    let ts := body ts
    if ts.isEmpty then some ⟨.blank, []⟩ else nodes ts
  | [] => if directives.isEmpty then some ⟨.blank, []⟩ else none
  | ts => if directives.isEmpty then nodes (body ts) else none

end Sketchwright.Yaml
