import Sketchwright.Proofs.Cursor.Expr

/-! Walks over statements and whole programs. -/

namespace Sketchwright.Cursor

open Reading Program

section Walks

variable (tokens : List Token)

def annotatedKind : Walk Kind := do
  let line ← currentLine tokens
  let name ← expectIdentifier tokens
  match Kind.ofAnnotation? name with
  | some kind => return kind
  | none => fail (.unsupported line (.annotationName name))

/-- An assignment from its sign on. -/
def assigned (line : Nat) (left : Expr) (depth : Nat) : Walk Stmt := do
  advance tokens
  match target? left with
  | none => fail (.malformed line .assignedExpression)
  | some target => do
    let value ← parse tokens depth
    let kind ← currentKind tokens
    refuse (kind = .symbol .equal) (.unsupported line .chainedAssignment)
    return .assign line target value none .unresolved

/-- An assignment with an annotation from its colon on. -/
def annotated (line : Nat) (left : Expr) (depth : Nat) : Walk Stmt :=
  match left with
  | .name id => do
    advance tokens
    let annotation ← annotatedKind tokens
    let kind ← currentKind tokens
    refuse (kind ≠ .symbol .equal) (.unsupported line .annotationWithoutValue)
    advance tokens
    let value ← parse tokens depth
    return .assign line (.name id) value (some annotation) .unresolved
  | _ => fail (.malformed line .annotatedExpression)

def assignmentOrExpr (line depth : Nat) : Walk Stmt := do
  let kind ← currentKind tokens
  let next ← peek tokens 1
  let second ← peek tokens 2
  let third ← peek tokens 3
  refuse (kind.isIdentifier && (next == .symbol .plus || next == .symbol .minus) &&
    next == second && third.endsLine)
    (.unsupported line .increment)
  let left ← parse tokens depth
  let kind ← currentKind tokens
  match kind with
  | .symbol .equal => assigned tokens line left depth
  | .symbol .colon => annotated tokens line left depth
  | .compoundAssign op => fail (.unsupported line (.compoundAssignment op))
  | .symbol .comma => fail (.unsupported line .tupleAssignment)
  | _ => return .expr line left

/-- The further names after commas. -/
def namesLoop (names : List String) : Nat → Walk (List String)
  | 0 => cutOff
  | depth + 1 => do
    let start ← get
    let kind ← currentKind tokens
    if kind = .symbol .comma then
      advance tokens
      let name ← expectIdentifier tokens
      turned start
      namesLoop (names ++ [name]) depth
    else return names

/-- A statement without a block that starts with `t`, up to the end of its line. -/
def simpleFormAt (place : Place) (t : Token) (depth : Nat) : Walk Stmt :=
  match t.kind with
  | .keyword .returnValue => do
    refuse (!place.inFunction) (.unsupported t.line .returnOutsideFunction)
    advance tokens
    let kind ← currentKind tokens
    if kind.endsLine then return .give t.line none
    else
      let value ← parse tokens depth
      return .give t.line (some value)
  | .keyword .pass => do
    advance tokens
    return .pass t.line
  | .keyword .breakLoop => do
    refuse (!place.inLoop) (.unsupported t.line (.jumpOutsideLoop .breakLoop))
    advance tokens
    return .stop t.line
  | .keyword .continueLoop => do
    refuse (!place.inLoop) (.unsupported t.line (.jumpOutsideLoop .continueLoop))
    advance tokens
    return .skip t.line
  | .keyword .global => do
    refuse (!place.inFunction) (.unsupported t.line .globalOutsideFunction)
    advance tokens
    let name ← expectIdentifier tokens
    let names ← namesLoop tokens [name] depth
    return .global t.line names
  | .identifier word =>
    if unsupportedWords.contains word then fail (.unsupported t.line (.keywordStatement word))
    else assignmentOrExpr tokens t.line depth
  | .string text => do
    let next ← peek tokens 1
    if next.endsLine then
      advance tokens
      return .comment t.line .block text
    else assignmentOrExpr tokens t.line depth
  | _ => assignmentOrExpr tokens t.line depth

def simpleForm (place : Place) (depth : Nat) : Walk Stmt := do
  simpleFormAt tokens place (← current tokens) depth

def endLine (out : List Stmt) : Walk (List Stmt) := do
  let kind ← currentKind tokens
  if kind = .newline then
    advance tokens
    return out
  else if kind = .eof then return out
  else unexpected tokens .endOfLine

/-- The end of a line, with the comment before it if there is one. The
statements go after others. -/
def finishLine (out : List Stmt) : Walk (List Stmt) := do
  let t ← current tokens
  match t.kind with
  | .comment text => do
    advance tokens
    endLine tokens (out ++ [.comment t.line .trailing text])
  | _ => endLine tokens out

def simpleStatement (place : Place) (out : List Stmt) (depth : Nat) : Walk (List Stmt) := do
  let stmt ← simpleForm tokens place depth
  finishLine tokens (out ++ [stmt])

/-- The kind of a parameter, after a colon. -/
def parameterKind : Walk (Option Kind) := do
  let kind ← currentKind tokens
  if kind = .symbol .colon then
    advance tokens
    let annotation ← annotatedKind tokens
    return some annotation
  else return none

def parametersLoop (line : Nat) (params : List Param) : Nat → Walk (List Param)
  | 0 => cutOff
  | depth + 1 => do
    let start ← get
    let kind ← currentKind tokens
    if kind = .symbol .rightParen then return params
    else if kind = .symbol .star ∨ kind = .symbol .doubleStar then
      fail (.unsupported line .variadicParameter)
    else
      let name ← expectIdentifier tokens
      refuse (params.any (·.name == name)) (.malformed line (.duplicateParameter name))
      let annotation ← parameterKind tokens
      let kind ← currentKind tokens
      if kind = .symbol .equal then fail (.unsupported line .defaultParameter)
      else if kind = .symbol .comma then
        advance tokens
        turned start
        parametersLoop line (params ++ [⟨name, annotation⟩]) depth
      else
        turned start
        return params ++ [⟨name, annotation⟩]

/-- The return kind after an arrow. -/
def returnKind : Walk (Option Kind) := do
  let kind ← currentKind tokens
  if kind = .symbol .arrow then
    advance tokens
    let kind ← currentKind tokens
    if kind = .keyword .noneValue then
      advance tokens
      return some .void
    else
      let annotation ← annotatedKind tokens
      return some annotation
  else return none

/-- The end of the parameters. -/
def closedParams (params : List Param) : Walk (List Param) := do
  expectSymbol tokens .rightParen
  return params

def functionHead (line depth : Nat) : Walk FunctionHead := do
  let name ← expectIdentifier tokens
  expectSymbol tokens .leftParen
  let params ← parametersLoop tokens line [] depth
  let params ← closedParams tokens params
  let returns ← returnKind tokens
  let isEntry := entryPoints.contains name
  refuse (isEntry && !params.isEmpty) (.unsupported line (.entryParameters name))
  refuse (isEntry && returns.any (· ≠ .void)) (.unsupported line (.entryReturnKind name))
  expectSymbol tokens .colon
  return ⟨name, params, returns, isEntry⟩

/-- The value of a step, in sixty-four bits. -/
def stepOf (line : Nat) (step : Expr) : Walk Int := do
  let value ← match step with
    | .literal (.int value) => pure value
    | .unary .minus (.literal (.int value)) => negated value
    | _ => fail (.unsupported line .computedStep)
  refuse (value = 0) (.unsupported line .zeroStep)
  return value

def boundsOf (line : Nat) : List Expr → Walk Bounds
  | [stop] => return ⟨none, stop, 1⟩
  | [start, stop] => return ⟨some start, stop, 1⟩
  | [start, stop, step] => do
    let step ← stepOf line step
    return ⟨some start, stop, step⟩
  | args => fail (.malformed line (.rangeArguments args.length))

def loopHead (line depth : Nat) : Walk (String × Bounds) := do
  let var ← expectIdentifier tokens
  let kind ← currentKind tokens
  refuse (kind = .symbol .comma) (.unsupported line .tupleLoopTarget)
  expectKeyword tokens .inRange
  let iterable ← parse tokens depth
  match iterable with
  | .call callee args => do
    refuse (callee ≠ "range") (.unsupported line .iteration)
    let bounds ← boundsOf line args
    expectSymbol tokens .colon
    return (var, bounds)
  | _ => fail (.unsupported line .iteration)

/-- The position of the next token that is not a comment or a blank line. The
cursor does not move. -/
def lookahead (index : Nat) : Nat → Walk Nat
  | 0 => cutOff
  | depth + 1 => do
    let t ← tokenAt tokens index
    if t.kind.isTrivia then lookahead (index + 1) depth else return index

/-- The end of a block. -/
def closedBlock (out : List Stmt) : Walk (List Stmt) := do
  let kind ← currentKind tokens
  if kind = .dedent then
    advance tokens
    return out
  else return out

mutual

def block (place : Place) : Nat → Walk (List Stmt)
  | 0 => cutOff
  | depth + 1 => do
    let kind ← currentKind tokens
    if kind.endsLine then
      let out ← finishLine tokens []
      let line ← currentLine tokens
      let kind ← currentKind tokens
      refuse (kind ≠ .indent) (.malformed line .missingBlock)
      advance tokens
      let out ← blockLoop place out depth
      closedBlock tokens out
    else simpleStatement tokens place [] depth

def blockLoop (place : Place) (out : List Stmt) : Nat → Walk (List Stmt)
  | 0 => cutOff
  | depth + 1 => do
    let start ← get
    let kind ← currentKind tokens
    if kind = .dedent ∨ kind = .eof then return out
    else if kind = .newline then
      advance tokens
      turned start
      blockLoop place out depth
    else
      let out ← statement place out depth
      turned start
      blockLoop place out depth

def statement (place : Place) (out : List Stmt) : Nat → Walk (List Stmt)
  | 0 => cutOff
  | depth + 1 => do statementAt place out (← current tokens) depth

def statementAt (place : Place) (out : List Stmt) (t : Token) : Nat → Walk (List Stmt)
  | 0 => cutOff
  | depth + 1 =>
    match t.kind with
    | .comment text => do
      advance tokens
      return out ++ [.comment t.line .line text]
    | .blankLine => do
      advance tokens
      return out ++ [.blank t.line]
    | .keyword .define => do
      refuse place.inFunction (.unsupported t.line .nestedFunction)
      let stmt ← function depth
      return out ++ [stmt]
    | .keyword .ifBranch => do
      let stmt ← conditional place depth
      return out ++ [stmt]
    | .keyword .forLoop => do
      let stmt ← loop place depth
      return out ++ [stmt]
    | .keyword .whileLoop => fail (.unsupported t.line .whileLoop)
    | .keyword .elifBranch => fail (.malformed t.line .strayElse)
    | .keyword .elseBranch => fail (.malformed t.line .strayElse)
    | .indent => fail (.malformed t.line .strayIndent)
    | .dedent => fail (.malformed t.line .strayBlockEnd)
    | _ => simpleStatement tokens place out depth

def function : Nat → Walk Stmt
  | 0 => cutOff
  | depth + 1 => do
    let line ← currentLine tokens
    expectKeyword tokens .define
    let head ← functionHead tokens line depth
    let body ← block .function depth
    return .function line head none [] body

def conditional (place : Place) : Nat → Walk Stmt
  | 0 => cutOff
  | depth + 1 => do
    let line ← currentLine tokens
    advance tokens
    let condition ← parse tokens depth
    expectSymbol tokens .colon
    let body ← block place depth
    let next ← lookahead tokens (← get) depth
    let t ← tokenAt tokens next
    if t.kind = .keyword .elifBranch ∨ t.kind = .keyword .elseBranch then
      let body ← replay place next body depth
      let kind ← currentKind tokens
      if kind = .keyword .elifBranch then
        let stmt ← conditional place depth
        return .conditional line condition body [stmt]
      else
        advance tokens
        expectSymbol tokens .colon
        let elseBody ← block place depth
        return .conditional line condition body elseBody
    else return .conditional line condition body []

/-- The comments and blank lines before a position. -/
def replay (place : Place) (next : Nat) (out : List Stmt) : Nat → Walk (List Stmt)
  | 0 => cutOff
  | depth + 1 => do
    let start ← get
    if start < next then
      let out ← statement place out depth
      turned start
      replay place next out depth
    else return out

def loop (place : Place) : Nat → Walk Stmt
  | 0 => cutOff
  | depth + 1 => do
    let line ← currentLine tokens
    expectKeyword tokens .forLoop
    let head ← loopHead tokens line depth
    let body ← block { place with inLoop := true } depth
    let next ← lookahead tokens (← get) depth
    let t ← tokenAt tokens next
    refuse (t.kind = .keyword .elseBranch) (.unsupported t.line .loopElse)
    return .loop line head.1 head.2 .unresolved body

end

def topLoop (out : List Stmt) : Nat → Walk (List Stmt)
  | 0 => cutOff
  | depth + 1 => do
    let start ← get
    let kind ← currentKind tokens
    if kind = .eof then return out
    else if kind = .newline then
      advance tokens
      turned start
      topLoop out depth
    else
      let out ← statement tokens .module out depth
      turned start
      topLoop out depth

def program (depth : Nat) : Walk Program := do
  let stmts ← topLoop tokens [] depth
  match checkModuleLevel stmts with
  | .ok _ => return ofStatements stmts
  | .error fault => fail fault

end Walks

/-- The program of a list of tokens by a walk from its first position: it has none where the walk
does not end, and a trap where the walk does something wrong. -/
noncomputable def ofTokens (tokens : List Token) (source : String) :
    Option (Except Trap (Except Error Program)) :=
  match result? (program tokens) 0 with
  | none => none
  | some (.ok (p, _)) => some (.ok (.ok p))
  | some (.error (.fault fault)) => some (.ok (.error (errorOf (Text.lines source) fault)))
  | some (.error (.trap trap)) => some (.error trap)

end Sketchwright.Cursor
