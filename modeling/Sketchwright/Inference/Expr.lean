import Sketchwright.Inference.Basic

/-! Kinds of expressions. An expression that has a kind has a scalar one: lists and calls without a
result are no values. -/

namespace Sketchwright.Inference

/-- The kind of a variable, a runtime constant standing behind all variables. -/
def resolve (env : Env) (name : String) (line : Nat) : Infer Kind := do
  match (← getScope).meaning name with
  | .own kind => return kind
  | .outer kind =>
    modifyScope (·.markSeen name)
    return kind
  | .later defined => unbound line name (.definedLater defined)
  | .missing =>
    match env.table.constant? name with
    | some kind => return kind
    | none =>
      if (← get).functions.contains name then unsupported line (.functionAsValue name)
      else unbound line name .undefined

/-- The kind of the items of a list variable. -/
def elementKind (env : Env) (name : String) (line : Nat) : Infer Kind := do
  match ← resolve env name line with
  | .list element _ => return element
  | other => mismatch line (.variable name) .list (.kind other)

/-- The kind of `left op right`. -/
def binaryKind (op : BinOp) (left right : Kind) (line : Nat) : Except Error Kind :=
  let subject := Subject.operands op
  if op.isComparison then
    if (left == right && left.isScalar) || (left.isNumeric && right.isNumeric) then .ok .bool
    else .error (.mismatch line subject (.kind left) (.kind right))
  else if op == .add && (left == .str || right == .str) then
    if left == right then .ok .str
    else .error (.mismatch line subject (.kind left) (.kind right))
  else if !left.isNumeric then .error (.mismatch line subject .number (.kind left))
  else if !right.isNumeric then .error (.mismatch line subject .number (.kind right))
  else
    let integers := left.isInteger && right.isInteger
    match op with
    | .pow => .ok .float
    | _ =>
      if op == .div && integers then .error (.unsupported line .integerDivision)
      else if (op == .floorDiv || op == .mod) && !integers then
        .error (.unsupported line (.floatOperands op))
      else
        match left.promote right with
        | some kind => .ok kind
        | none => .error (.internal line .promotionFailed)

/-- The widest of some numeric kinds. -/
def promoteAll (callee : String) (line : Nat) : Option Kind → List Kind → Except Error Kind
  | some widest, [] => .ok widest
  | none, [] => .error (.internal line (.noArguments callee))
  | widest, kind :: kinds =>
    if kind.isNumeric then
      let next := match widest with
        | some widest => (widest.promote kind).getD widest
        | none => kind
      promoteAll callee line (some next) kinds
    else .error (.mismatch line (.arguments callee) .number (.kind kind))

/-- Matches arguments with parameters, from number `position` on. A parameter without a kind takes
the kind of its argument. -/
def matchParams (callee : String) (line : Nat) (position : Nat) :
    List (String × Option Kind) → List Kind → Infer (List (String × Option Kind))
  | (param, some expected) :: params, found :: kinds => do
    if !expected.accepts found then
      mismatch line (.argument position param callee) (.kind expected) (.kind found)
    return (param, some expected) :: (← matchParams callee line (position + 1) params kinds)
  | (param, none) :: params, found :: kinds => do
    emit (.parameterKind callee param found line)
    return (param, some found) :: (← matchParams callee line (position + 1) params kinds)
  | params, _ => return params

/-- What a call gives whose result is of this kind, as far as known. -/
def callResult (callee : String) (line : Nat) (asStatement : Bool) : Option Kind → Infer Kind
  | none =>
    if asStatement then return .void
    else throw (.pending (.unsupported line (.unknownReturnKind callee)))
  | some .void =>
    if asStatement then return .void else unsupported line (.voidValue callee)
  | some kind => return kind

/-- A call of a function of the program. -/
def userCall (callee : String) (line : Nat) (asStatement : Bool) (argKinds : Infer (List Kind)) :
    Infer Kind := do
  let kinds ← argKinds
  match (← get).functions.find? callee with
  | none => internal line (.noSignatureFor callee)
  | some slots =>
    if slots.params.length ≠ kinds.length then
      mismatch line (.argumentCount callee) (.count slots.params.length) (.count kinds.length)
    let params ← matchParams callee line 1 slots.params kinds
    modify fun s =>
      { s with functions := s.functions.update callee fun slots => { slots with params } }
    callResult callee line asStatement slots.returns

/-- A call of a name that neither the program nor the runtime defines. -/
def unknownCall (callee : String) (line : Nat) (asStatement : Bool)
    (argKinds : Infer (List Kind)) : Infer Kind := do
  let _ ← argKinds
  if (← getScope).meaning callee ≠ .missing then unsupported line (.calledVariable callee)
  if asStatement then
    emit (.unknownCall callee line)
    return .void
  else unsupported line (.unknownCallValue callee)

/-- The kinds of the arguments of a runtime call, as its rule reads them. -/
def ruleArguments (env : Env) (rule : CallRule) (line : Nat) (args : List Expr)
    (argKinds : Infer (List Kind)) : Infer (List Kind) :=
  match rule.form with
  | .loopRange => unsupported line .looseRange
  | .listLength =>
    match args with
    | [] => return []
    | .name list :: _ => do
      let _ ← elementKind env list line
      return []
    | _ => do
      let kinds ← argKinds
      mismatch line .lengthArgument .list (.kind (kinds.headD .void))
  | _ => argKinds

/-- A string is converted to no number. -/
def refusesString (rule : CallRule) : Bool :=
  rule.form == .cast && (rule.returns == .fixed .int || rule.returns == .fixed .float)

/-- A rule may fix the number of arguments. -/
def checkArity (callee : String) (line count : Nat) : Option Nat → Infer Unit
  | some arity => do
    if arity ≠ count then mismatch line (.argumentCount callee) (.count arity) (.count count)
  | none => return ()

/-- What a runtime call gives whose arguments have these kinds. -/
def ruleResult (rule : CallRule) (callee : String) (line : Nat) (asStatement : Bool)
    (kinds : List Kind) : Infer Kind :=
  match rule.returns with
  | .void => if asStatement then return .void else unsupported line (.voidValue callee)
  | .fixed kind => return kind
  | .promoted =>
    match promoteAll callee line none kinds with
    | .ok kind => return kind
    | .error error => fail error

/-- A call of the runtime. -/
def runtimeCall (env : Env) (rule : CallRule) (callee : String) (line : Nat) (asStatement : Bool)
    (args : List Expr) (argKinds : Infer (List Kind)) : Infer Kind := do
  checkArity callee line args.length rule.arity
  let kinds ← ruleArguments env rule line args argKinds
  if refusesString rule && kinds.head? == some .str then
    unsupported line (.stringConversion callee)
  ruleResult rule callee line asStatement kinds

/-- The kind of a call. The kinds of its arguments are found out where its rule asks for them. -/
def callKind (env : Env) (callee : String) (line : Nat) (asStatement : Bool) (args : List Expr)
    (argKinds : Infer (List Kind)) : Infer Kind := do
  if (← get).functions.contains callee then
    if (← getScope).isModule then unsupported line (.callInInitializer callee)
    userCall callee line asStatement argKinds
  else
    match env.table.call? callee with
    | none => unknownCall callee line asStatement argKinds
    | some rule => runtimeCall env rule callee line asStatement args argKinds

mutual

def exprKind (env : Env) (line : Nat) : Expr → Infer Kind
  | .literal value => return value.kind
  | .name id => do
    let kind ← resolve env id line
    if kind.isList then unsupported line (.listAsValue id)
    return kind
  | .unary sign operand => do
    let kind ← exprKind env line operand
    if !kind.isNumeric then mismatch line (.operand sign) .number (.kind kind)
    return kind
  | .binary left op right => do
    let leftKind ← exprKind env line left
    let rightKind ← exprKind env line right
    match binaryKind op leftKind rightKind line with
    | .ok kind => return kind
    | .error error => fail error
  | .call callee args => callKind env callee line false args (exprKinds env line args)
  | .index list position => do
    let element ← elementKind env list line
    let kind ← exprKind env line position
    if !kind.isInteger then mismatch line (.position list) (.kind .int) (.kind kind)
    return element
  | .list _ => unsupported line .looseList

/-- The kinds of several expressions, from left to right. -/
def exprKinds (env : Env) (line : Nat) : List Expr → Infer (List Kind)
  | [] => return []
  | e :: es => do
    let kind ← exprKind env line e
    return kind :: (← exprKinds env line es)

end

end Sketchwright.Inference
