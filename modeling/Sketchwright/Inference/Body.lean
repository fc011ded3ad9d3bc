import Sketchwright.Inference.Expr

/-! Inference of statements. The first assignment of a name gives its kind. At the top of a body it
declares the name; inside a block the name is hoisted to the top and the assignment stays one. -/

namespace Sketchwright.Inference

def isListLiteral : Expr → Bool
  | .list _ => true
  | _ => false

/-- The kind of a list with these items, the first of which was of kind `first`. -/
def itemsKind (env : Env) (line : Nat) (first : Option Kind) : List Expr → Infer Kind
  | [] =>
    match first with
    | some kind => return kind
    | none => unsupported line .emptyList
  | item :: items => do
    if isListLiteral item then unsupported line .nestedList
    let kind ← exprKind env line item
    match first with
    | none => itemsKind env line (some kind) items
    | some expected =>
      if kind ≠ expected then unsupported line (.mixedList expected kind)
      itemsKind env line first items

/-- The kind of an assigned value, which alone may be a list. -/
def assignedKind (env : Env) (line : Nat) : Expr → Infer Kind
  | .list items => do
    if 0 < (← get).frame.depth then unsupported line .listInBlock
    return .list (← itemsKind env line none items) items.length
  | value => exprKind env line value

/-- The header of a loop owns its variable. -/
def checkLoopVar (name : String) (line : Nat) : Infer Unit := do
  if (← get).frame.loopVars.contains name then unsupported line (.assignedLoopVariable name)

/-- A further assignment may declare nothing but the kind that the name has. -/
def checkRedeclared (name : String) (existing : Kind) (line : Nat) : Option Kind → Infer Unit
  | some declared => do
    if declared ≠ existing then
      mismatch line (.variable name) (.kind existing) (.kind declared)
  | none => return ()

/-- An assignment to a name that is bound with kind `existing`. -/
def reassign (name : String) (existing kind : Kind) (declared : Option Kind) (line : Nat) :
    Infer Binding := do
  if existing.isList || kind.isList then unsupported line (.reassignedList name)
  checkRedeclared name existing line declared
  if kind ≠ existing then mismatch line (.variable name) (.kind existing) (.kind kind)
  return .reassign

/-- A declared kind is one that accepts the first value. -/
def checkDeclared (name : String) (kind : Kind) (line : Nat) : Option Kind → Infer Unit
  | some declared => do
    if kind.isList || !declared.accepts kind then
      mismatch line (.variable name) (.kind declared) (.kind kind)
  | none => return ()

/-- The first assignment of a name. -/
def declare (name : String) (kind : Kind) (declared : Option Kind) (line : Nat) :
    Infer Binding := do
  checkDeclared name kind line declared
  let kind := declared.getD kind
  modifyScope (·.declare name kind line)
  if (← get).frame.depth = 0 then return .declare kind
  else
    modifyFrame fun frame => { frame with hoisted := frame.hoisted ++ [(name, kind)] }
    return .reassign

/-- The kind that a name is bound with, unless it is bound for the first time here. A global that
was read before cannot be hidden any more. -/
def boundKind (name : String) (line : Nat) (reason : Unbound) : Infer (Option Kind) := do
  let scope ← getScope
  match scope.meaning name with
  | .own kind => return some kind
  | .outer kind =>
    if scope.isShared name then return some kind
    else if scope.isSeen name then unbound line name reason
    else return none
  | .later _ => if scope.isSeen name then unbound line name reason else return none
  | .missing => return none

/-- What an assignment to a name needs before its value is read. -/
def checkAssignable (env : Env) (name : String) (line : Nat) : Infer Unit := do
  if (← getScope).isModule && (← get).functions.contains name then
    unsupported line (.globalNamedAsFunction name)
  if env.table.isKnown name then unsupported line (.assignedRuntimeName name)
  checkLoopVar name line

def assignName (env : Env) (name : String) (value : Expr) (declared : Option Kind) (line : Nat) :
    Infer Binding := do
  checkAssignable env name line
  let kind ← assignedKind env line value
  match ← boundKind name line .assignedAfterRead with
  | some existing =>
    if (← getScope).isModule then unsupported line (.reassignedGlobal name)
    else reassign name existing kind declared line
  | none => declare name kind declared line

def assignElement (env : Env) (list : String) (position value : Expr) (line : Nat) :
    Infer Binding := do
  if (← getScope).isModule then unsupported line .moduleElement
  let element ← elementKind env list line
  let index ← exprKind env line position
  if !index.isInteger then mismatch line (.position list) (.kind .int) (.kind index)
  let kind ← exprKind env line value
  if !element.accepts kind then mismatch line (.elements list) (.kind element) (.kind kind)
  return .reassign

def assignTarget (env : Env) (target : Target) (value : Expr) (declared : Option Kind)
    (line : Nat) :
    Infer Binding :=
  match target with
  | .name id => assignName env id value declared line
  | .element list position => assignElement env list position value line

def checkBound (env : Env) (line : Nat) (bound : Expr) : Infer Unit := do
  let kind ← exprKind env line bound
  if !kind.isInteger then mismatch line .rangeBounds (.kind .int) (.kind kind)

def checkBounds (env : Env) (line : Nat) (bounds : Bounds) : Infer Unit := do
  match bounds.start with
  | some start => checkBound env line start
  | none => pure ()
  checkBound env line bounds.stop

/-- How a loop variable relates to the names that are bound already. -/
def bindLoopVar (var : String) (line : Nat) : Infer Binding := do
  checkLoopVar var line
  match ← boundKind var line .loopAfterRead with
  | some kind =>
    if kind ≠ .int then mismatch line (.variable var) (.kind kind) (.kind .int)
    return .reassign
  | none =>
    modifyScope (·.declare var .int line)
    return .declare .int

/-- A variable that a loop declares ends with it. -/
def releaseLoopVar (var : String) : Binding → Infer Unit
  | .declare _ => modifyScope (·.remove var)
  | _ => return ()

/-- A condition is anything but a string. -/
def checkCondition (env : Env) (line : Nat) (condition : Expr) : Infer Unit := do
  let kind ← exprKind env line condition
  if !kind.isScalar || kind == .str then mismatch line .condition (.kind .bool) (.kind kind)

/-- An expression that is a statement; only a call may have no value. -/
def checkStatement (env : Env) (line : Nat) (value : Expr) : Infer Unit :=
  match value with
  | .call callee args => do
    let _ ← callKind env callee line true args (exprKinds env line args)
  | _ => do
    let _ ← exprKind env line value

/-- The kind of what a `return` gives. -/
def givenKind (env : Env) (line : Nat) : Option Expr → Infer Kind
  | some value => exprKind env line value
  | none => return .void

/-- A result agrees with the kind that is known before the body is read, or else with the results
before it. -/
def checkReturned (owner : Owner) (kind : Kind) (line : Nat) : Infer Unit := do
  match owner.returns with
  | some expected =>
    let fits := if expected = .void then kind == .void else expected.accepts kind
    if !fits then mismatch line (.returnValue owner.name) (.kind expected) (.kind kind)
  | none =>
    match (← get).frame.returned with
    | some previous =>
      if previous ≠ kind then
        mismatch line (.returnValue owner.name) (.kind previous) (.kind kind)
    | none => modifyFrame fun frame => { frame with returned := some kind }

def inferReturn (env : Env) (value : Option Expr) (line : Nat) : Infer Unit := do
  let kind ← givenKind env line value
  match env.owner with
  | none => internal line .returnOutsideFunction
  | some owner =>
    if owner.isEntry && kind ≠ .void then unsupported line (.entryReturnValue owner.name)
    checkReturned owner kind line

def shareGlobal (name : String) (line : Nat) : Infer Unit := do
  let scope ← getScope
  if scope.isLocal name then unsupported line (.lateGlobal name)
  match scope.meaning name with
  | .outer _ => modifyScope (·.share name)
  | .later defined => unbound line name (.globalDefinedLater defined)
  | .own _ | .missing => unbound line name .noSuchGlobal

def shareGlobals (line : Nat) : List String → Infer Unit
  | [] => return ()
  | name :: names => do
    shareGlobal name line
    shareGlobals line names

def enterBlock : Infer Unit := modifyFrame fun frame => { frame with depth := frame.depth + 1 }

def leaveBlock : Infer Unit := modifyFrame fun frame => { frame with depth := frame.depth - 1 }

def enterLoop (var : String) : Infer Unit :=
  modifyFrame fun frame => { frame with loopVars := var :: frame.loopVars }

def leaveLoop : Infer Unit :=
  modifyFrame fun frame => { frame with loopVars := frame.loopVars.tail }

mutual

/-- The statement with its slots filled. -/
def inferStmt (env : Env) : Stmt → Infer Stmt
  | .assign line target value declared _ => do
    let binding ← assignTarget env target value declared line
    return .assign line target value declared binding
  | .conditional line condition thenBody elseBody => do
    checkCondition env line condition
    enterBlock
    let thenBody ← inferBlock env thenBody
    let elseBody ← inferBlock env elseBody
    leaveBlock
    return .conditional line condition thenBody elseBody
  | .loop line var bounds _ body => do
    checkBounds env line bounds
    let binding ← bindLoopVar var line
    enterBlock
    enterLoop var
    let body ← inferBlock env body
    leaveLoop
    leaveBlock
    releaseLoopVar var binding
    return .loop line var bounds binding body
  | .expr line value => do
    checkStatement env line value
    return .expr line value
  | .give line value => do
    inferReturn env value line
    return .give line value
  | .global line names => do
    shareGlobals line names
    return .global line names
  | .function line head _ _ _ => internal line (.nestedFunctionInferred head.name)
  | .comment line style text => return .comment line style text
  | .blank line => return .blank line
  | .pass line => return .pass line
  | .stop line => return .stop line
  | .skip line => return .skip line

def inferBlock (env : Env) : List Stmt → Infer (List Stmt)
  | [] => return []
  | stmt :: stmts => do
    let stmt ← inferStmt env stmt
    return stmt :: (← inferBlock env stmts)

end

end Sketchwright.Inference
