import Sketchwright.Yaml.Token

/-! Collections that are not closed yet, and what each mark adds to them. Where a node is left
out, a blank one stands. -/

namespace Sketchwright.Yaml

/-- How far the current entry of a mapping is. -/
inductive Entry where
  | idle
  /-- Its mark was read, and the key is due. -/
  | keyDue
  | keyRead (key : Node)
  /-- The mark of the value was read, and the value is due. -/
  | valueDue (key : Node)
  deriving Repr

namespace Entry

/-- The entry as it is when nothing more belongs to it. -/
def finish : Entry → List (Node × Node)
  | .idle => []
  | .keyDue => [(.blank, .blank)]
  | .keyRead key | .valueDue key => [(key, .blank)]

/-- Reads the mark of the value. -/
def value? : Entry → Option Entry
  | .keyDue => some (.valueDue .blank)
  | .keyRead key => some (.valueDue key)
  | _ => none

end Entry

/-- A collection that is not closed yet, the latest item or entry first. -/
inductive Open where
  /-- Items after marks of their own; `due` says that an item is to come. `bounded` says that the
  indentation tells their end; otherwise they stand at the column of the mapping around them. -/
  | blockItems (bounded : Bool) (items : List Node) (due : Bool)
  | blockEntries (entries : List (Node × Node)) (entry : Entry)
  /-- Items in brackets; `room` says that an item or the end may come next. An item may be a single
  entry. -/
  | flowItems (items : List Node) (room : Bool) (entry : Entry)
  | flowEntries (entries : List (Node × Node)) (room : Bool) (entry : Entry)
  deriving Repr

namespace Open

/-- Adds a node where one is due. -/
def put? (node : Node) : Open → Option Open
  | .blockItems bounded items true => some (.blockItems bounded (node :: items) false)
  | .blockEntries entries .keyDue => some (.blockEntries entries (.keyRead node))
  | .blockEntries entries (.valueDue key) => some (.blockEntries ((key, node) :: entries) .idle)
  | .flowItems items true .idle => some (.flowItems (node :: items) false .idle)
  | .flowItems items false .keyDue => some (.flowItems items false (.keyRead node))
  | .flowItems items false (.valueDue key) =>
    some (.flowItems (.mapping [(key, node)] :: items) false .idle)
  | .flowEntries entries true .idle => some (.flowEntries ((node, .blank) :: entries) false .idle)
  | .flowEntries entries false .keyDue => some (.flowEntries entries false (.keyRead node))
  | .flowEntries entries false (.valueDue key) =>
    some (.flowEntries ((key, node) :: entries) false .idle)
  | _ => none

/-- The items of a block once one that is due has got a blank. -/
def settle (items : List Node) (due : Bool) : List Node := if due then .blank :: items else items

/-- The items in brackets once a single entry is finished. One without a key is refused. -/
def settleEntry? (items : List Node) : Entry → Option (List Node)
  | .idle => some items
  | .keyDue => none
  | .keyRead key | .valueDue key => some (.mapping [(key, .blank)] :: items)

def item? : Open → Option Open
  | .blockItems bounded items due => some (.blockItems bounded (settle items due) true)
  | _ => none

def key? : Open → Option Open
  | .blockEntries entries entry => some (.blockEntries (entry.finish ++ entries) .keyDue)
  | .flowItems items true .idle => some (.flowItems items false .keyDue)
  | .flowEntries entries true .idle => some (.flowEntries entries false .keyDue)
  | _ => none

def value? : Open → Option Open
  | .blockEntries entries entry => entry.value?.map (.blockEntries entries)
  | .flowItems items false (.keyRead key) => some (.flowItems items false (.valueDue key))
  | .flowEntries entries false entry => entry.value?.map (.flowEntries entries false)
  | _ => none

def comma? : Open → Option Open
  | .flowItems items false entry => do return .flowItems (← settleEntry? items entry) true .idle
  | .flowEntries entries false entry => some (.flowEntries (entry.finish ++ entries) true .idle)
  | _ => none

/-- The collection that a token closes. -/
def close? : Token → Open → Option Node
  | .blockEnd, .blockItems true items due => some (.sequence (settle items due).reverse)
  | .blockEnd, .blockEntries entries entry => some (.mapping (entry.finish ++ entries).reverse)
  | .flowSequenceEnd, .flowItems items _ entry => do
    return .sequence (← settleEntry? items entry).reverse
  | .flowMappingEnd, .flowEntries entries _ entry =>
    some (.mapping (entry.finish ++ entries).reverse)
  | _, _ => none

/-- Whether items may follow that stand at the column of this mapping. -/
def takesItems : Open → Bool
  | .blockEntries _ .keyDue | .blockEntries _ (.valueDue _) => true
  | _ => false

end Open

end Sketchwright.Yaml
