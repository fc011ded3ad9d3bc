import Sketchwright.Expr.Parser

/-! The grammar of statements and programs. Comments and blank lines are statements too; those
before an `elif` or `else` belong to the branch above. -/

namespace Sketchwright.Program

open Reading

/-- Where a statement stands. -/
structure Place where
  inFunction : Bool
  inLoop : Bool
  deriving DecidableEq, Repr

def Place.module : Place := ⟨false, false⟩

def Place.function : Place := ⟨true, false⟩

def endLine (finalLine : Nat) : (ts : List Token) → Reading Unit (ts.length + 1)
  | [] => return ⟨(), [], nil_lt⟩
  | t :: ts =>
    if t.kind = .newline then return ⟨(), ts, tail_lt t ts⟩
    else throw (unexpected finalLine .endOfLine (t :: ts))

/-- The end of a line, with the comment before it if there is one. -/
def finishLine (finalLine : Nat) (ts : List Token) : Reading (List Stmt) (ts.length + 1) :=
  match ts with
  | ⟨.comment text, span⟩ :: ts => do
    let ⟨_, rest, h⟩ ← endLine finalLine ts
    return ⟨[.comment span.line .trailing text], rest, by simp only [List.length_cons]; omega⟩
  | ts => do
    let ⟨_, rest, h⟩ ← endLine finalLine ts
    return ⟨[], rest, h⟩

/-- Names with commas between them. -/
def names (finalLine : Nat) : (ts : List Token) → Reading (List String) ts.length
  | t :: ⟨.symbol .comma, span⟩ :: ts =>
    match t.kind with
    | .identifier name => do
      let ⟨more, rest, h⟩ ← names finalLine ts
      return ⟨name :: more, rest, by simp only [List.length_cons]; omega⟩
    | _ => throw (unexpected finalLine .identifier (t :: ⟨.symbol .comma, span⟩ :: ts))
  | ts => do
    let ⟨name, rest, h⟩ ← expectIdentifier finalLine ts
    return ⟨[name], rest, h⟩

def annotatedKind (finalLine : Nat) (ts : List Token) : Reading Kind ts.length := do
  let ⟨name, rest, h⟩ ← expectIdentifier finalLine ts
  match Kind.ofAnnotation? name with
  | some kind => return ⟨kind, rest, h⟩
  | none => throw (.unsupported (lineOf finalLine ts) (.annotationName name))

/-- A name with two signs after it that end the line. -/
def isIncrement : List Token → Bool
  | x :: a :: b :: rest =>
    x.kind.isIdentifier && (a.kind == .symbol .plus || a.kind == .symbol .minus) &&
      a.kind == b.kind && (kindOf rest).endsLine
  | _ => false

def target? : Expr → Option Target
  | .name id => some (.name id)
  | .index list position => some (.element list position)
  | _ => none

def assignmentOrExpr (finalLine line : Nat) (ts : List Token) : Reading Stmt ts.length := do
  if isIncrement ts then throw (.unsupported line .increment)
  let ⟨left, rest, h⟩ ← Expr.parse finalLine ts
  match kindOf rest with
  | .symbol .equal =>
    match target? left with
    | none => throw (.malformed line .assignedExpression)
    | some target =>
      let ⟨value, rest', h'⟩ ← Expr.parse finalLine rest.tail
      if kindOf rest' = .symbol .equal then throw (.unsupported line .chainedAssignment)
      return ⟨.assign line target value none .unresolved, rest', lt_of_tail h h'⟩
  | .symbol .colon =>
    match left with
    | .name id =>
      let ⟨kind, rest', h'⟩ ← annotatedKind finalLine rest.tail
      if kindOf rest' ≠ .symbol .equal then throw (.unsupported line .annotationWithoutValue)
      let ⟨value, rest'', h''⟩ ← Expr.parse finalLine rest'.tail
      return ⟨.assign line (.name id) value (some kind) .unresolved, rest'', by
        have := List.length_tail (l := rest)
        have := List.length_tail (l := rest')
        omega⟩
    | _ => throw (.malformed line .annotatedExpression)
  | .compoundAssign op => throw (.unsupported line (.compoundAssignment op))
  | .symbol .comma => throw (.unsupported line .tupleAssignment)
  | _ => return ⟨.expr line left, rest, h⟩

/-- A statement without a block, up to the end of its line. -/
def simpleForm (finalLine : Nat) (place : Place) (ts : List Token) : Reading Stmt ts.length :=
  match ts with
  | [] => throw (unexpected finalLine .expression [])
  | t :: ts =>
    match t.kind with
    | .keyword .returnValue => do
      if !place.inFunction then throw (.unsupported t.line .returnOutsideFunction)
      if (kindOf ts).endsLine then return ⟨.give t.line none, ts, length_lt ts⟩
      let ⟨value, rest, h⟩ ← Expr.parse finalLine ts
      return ⟨.give t.line (some value), rest, lt_cons t h⟩
    | .keyword .pass => return ⟨.pass t.line, ts, length_lt ts⟩
    | .keyword .breakLoop => do
      if !place.inLoop then throw (.unsupported t.line (.jumpOutsideLoop .breakLoop))
      return ⟨.stop t.line, ts, length_lt ts⟩
    | .keyword .continueLoop => do
      if !place.inLoop then throw (.unsupported t.line (.jumpOutsideLoop .continueLoop))
      return ⟨.skip t.line, ts, length_lt ts⟩
    | .keyword .global => do
      if !place.inFunction then throw (.unsupported t.line .globalOutsideFunction)
      let ⟨ids, rest, h⟩ ← names finalLine ts
      return ⟨.global t.line ids, rest, lt_cons t h⟩
    | .identifier word =>
      if unsupportedWords.contains word then throw (.unsupported t.line (.keywordStatement word))
      else assignmentOrExpr finalLine t.line (t :: ts)
    | .string text =>
      if (kindOf ts).endsLine then
        return ⟨.comment t.line .block text, ts, length_lt ts⟩
      else assignmentOrExpr finalLine t.line (t :: ts)
    | _ => assignmentOrExpr finalLine t.line (t :: ts)

def simpleStatement (finalLine : Nat) (place : Place) (ts : List Token) :
    Reading (List Stmt) ts.length := do
  let ⟨stmt, rest, h⟩ ← simpleForm finalLine place ts
  let ⟨note, rest', h'⟩ ← finishLine finalLine rest
  return ⟨stmt :: note, rest', lt_of_rest h h'⟩

/-- The further parameters of a function that is defined in line `line`, up to the closing
parenthesis. -/
def parameters (finalLine line : Nat) (seen : List Param) (ts : List Token) :
    Reading (List Param) (ts.length + 1) :=
  match kindOf ts with
  | .symbol .rightParen => return ⟨[], ts.tail, by have := List.length_tail (l := ts); omega⟩
  | .symbol .star | .symbol .doubleStar => throw (.unsupported line .variadicParameter)
  | _ => do
    let ⟨name, rest, h⟩ ← expectIdentifier finalLine ts
    if seen.any (·.name == name) then throw (.malformed line (.duplicateParameter name))
    let ⟨kind, rest', h'⟩ ← (match kindOf rest with
      | .symbol .colon => do
        let ⟨kind, after, ha⟩ ← annotatedKind finalLine rest.tail
        return ⟨some kind, after, by have := List.length_tail (l := rest); omega⟩
      | _ => return ⟨none, rest, h⟩ : Reading (Option Kind) ts.length)
    match kindOf rest' with
    | .symbol .equal => throw (.unsupported line .defaultParameter)
    | .symbol .comma =>
      let param := ⟨name, kind⟩
      let ⟨more, after, ha⟩ ← parameters finalLine line (seen ++ [param]) rest'.tail
      return ⟨param :: more, after, by have := List.length_tail (l := rest'); omega⟩
    | _ =>
      let ⟨_, after, ha⟩ ← expectSymbol finalLine .rightParen rest'
      return ⟨[⟨name, kind⟩], after, by omega⟩
termination_by ts.length

/-- The return kind after an arrow. -/
def returnKind (finalLine : Nat) (ts : List Token) : Reading (Option Kind) (ts.length + 1) :=
  match ts with
  | ⟨.symbol .arrow, _⟩ :: ts =>
    if kindOf ts = .keyword .noneValue then
      return ⟨some .void, ts.tail, by
        have := List.length_tail (l := ts)
        simp only [List.length_cons]
        omega⟩
    else do
      let ⟨kind, rest, h⟩ ← annotatedKind finalLine ts
      return ⟨some kind, rest, by simp only [List.length_cons]; omega⟩
  | ts => return ⟨none, ts, length_lt ts⟩

/-- What follows `def` in line `line`, colon included. -/
def functionHead (finalLine line : Nat) (ts : List Token) : Reading FunctionHead ts.length := do
  let ⟨name, rest, h⟩ ← expectIdentifier finalLine ts
  let ⟨_, rest, h⟩ ← expectSymbol finalLine .leftParen rest
  let ⟨params, rest, h⟩ ← parameters finalLine line [] rest
  let ⟨returns, rest, h⟩ ← returnKind finalLine rest
  let isEntry := entryPoints.contains name
  if isEntry && !params.isEmpty then throw (.unsupported line (.entryParameters name))
  if isEntry && returns.any (· ≠ .void) then throw (.unsupported line (.entryReturnKind name))
  let ⟨_, rest, h⟩ ← expectSymbol finalLine .colon rest
  return ⟨⟨name, params, returns, isEntry⟩, rest, by omega⟩

/-- The value of a step, which has to be a literal other than zero. -/
def stepOf (line : Nat) (step : Expr) : Except Fault Int := do
  let value ← match step with
    | .literal (.int value) => pure value
    | .unary .minus (.literal (.int value)) => pure (-value)
    | _ => throw (.unsupported line .computedStep)
  if value = 0 then throw (.unsupported line .zeroStep)
  return value

def boundsOf (line : Nat) : List Expr → Except Fault Bounds
  | [stop] => return ⟨none, stop, 1⟩
  | [start, stop] => return ⟨some start, stop, 1⟩
  | [start, stop, step] => do return ⟨some start, stop, ← stepOf line step⟩
  | args => throw (.malformed line (.rangeArguments args.length))

/-- What follows `for` in line `line`, colon included. -/
def loopHead (finalLine line : Nat) (ts : List Token) : Reading (String × Bounds) ts.length := do
  let ⟨var, rest, h⟩ ← expectIdentifier finalLine ts
  if kindOf rest = .symbol .comma then throw (.unsupported line .tupleLoopTarget)
  let ⟨_, rest, h'⟩ ← expectKeyword finalLine .inRange rest
  have h := lt_trans h h'
  let ⟨iterable, rest, h'⟩ ← Expr.parse finalLine rest
  have h := lt_trans h h'
  match iterable with
  | .call callee args =>
    if callee ≠ "range" then throw (.unsupported line .iteration)
    let bounds ← boundsOf line args
    let ⟨_, rest, h'⟩ ← expectSymbol finalLine .colon rest
    return ⟨(var, bounds), rest, lt_trans h h'⟩
  | _ => throw (.unsupported line .iteration)

def ofTrivia? (t : Token) : Option Stmt :=
  match t.kind with
  | .comment text => some (.comment t.line .line text)
  | .blankLine => some (.blank t.line)
  | _ => none

/-- The tokens after comment and blank lines. -/
def afterTrivia (ts : List Token) : List Token := ts.dropWhile (·.kind.isTrivia)

theorem afterTrivia_length (ts : List Token) : (afterTrivia ts).length ≤ ts.length :=
  (List.dropWhile_suffix _).length_le

mutual

/-- The body after the colon of a block header: a simple statement in the same line, or an indented
block. -/
def block (finalLine : Nat) (place : Place) (ts : List Token) : Reading (List Stmt) ts.length :=
  if (kindOf ts).endsLine then do
    let ⟨note, rest, h⟩ ← finishLine finalLine ts
    match rest, h with
    | [], _ => throw (.malformed finalLine .missingBlock)
    | t :: rest, h =>
      if t.kind = .indent then
        let ⟨body, after, h'⟩ ← blockBody finalLine place rest
        return ⟨note ++ body, after, by simp only [List.length_cons] at h; omega⟩
      else throw (.malformed t.line .missingBlock)
  else simpleStatement finalLine place ts
termination_by (ts.length, 0)
decreasing_by
  all_goals
    simp only [List.length_cons] at h
    exact Prod.Lex.left _ _ (by omega)

/-- The statements up to the end of an indented block. -/
def blockBody (finalLine : Nat) (place : Place) (ts : List Token) :
    Reading (List Stmt) (ts.length + 1) :=
  match ts with
  | [] => return ⟨[], [], nil_lt⟩
  | t :: ts =>
    match t.kind with
    | .dedent => return ⟨[], ts, by simp only [List.length_cons]; omega⟩
    | .newline => do
      let ⟨body, rest, h⟩ ← blockBody finalLine place ts
      return ⟨body, rest, by simp only [List.length_cons]; omega⟩
    | _ => do
      let ⟨first, rest, h⟩ ← statement finalLine place t ts
      let ⟨more, rest', h'⟩ ← blockBody finalLine place rest
      return ⟨first ++ more, rest', by simp only [List.length_cons]; omega⟩
termination_by (ts.length, 0)
decreasing_by
  all_goals exact Prod.Lex.left _ _ (by simp only [List.length_cons]; omega)

/-- The statement that starts with `t`, and the comment at the end of its line. -/
def statement (finalLine : Nat) (place : Place) (t : Token) (ts : List Token) :
    Reading (List Stmt) (ts.length + 1) :=
  match t.kind with
  | .comment text => return ⟨[.comment t.line .line text], ts, length_lt ts⟩
  | .blankLine => return ⟨[.blank t.line], ts, length_lt ts⟩
  | .keyword .define => do
    if place.inFunction then throw (.unsupported t.line .nestedFunction)
    let ⟨head, rest, h⟩ ← functionHead finalLine t.line ts
    let ⟨body, rest', h'⟩ ← block finalLine .function rest
    return ⟨[.function t.line head none [] body], rest', by omega⟩
  | .keyword .ifBranch => do
    let ⟨stmt, rest, h⟩ ← conditional finalLine place t.line ts
    return ⟨[stmt], rest, by omega⟩
  | .keyword .forLoop => do
    let ⟨(var, bounds), rest, h⟩ ← loopHead finalLine t.line ts
    let ⟨body, rest', h'⟩ ← block finalLine { place with inLoop := true } rest
    if kindOf (afterTrivia rest') = .keyword .elseBranch then
      throw (.unsupported (lineOf finalLine (afterTrivia rest')) .loopElse)
    return ⟨[.loop t.line var bounds .unresolved body], rest', by omega⟩
  | .keyword .whileLoop => throw (.unsupported t.line .whileLoop)
  | .keyword .elifBranch | .keyword .elseBranch => throw (.malformed t.line .strayElse)
  | .indent => throw (.malformed t.line .strayIndent)
  | .dedent => throw (.malformed t.line .strayBlockEnd)
  | _ => simpleStatement finalLine place (t :: ts)
termination_by (ts.length, 1)
decreasing_by
  all_goals
    first
    | exact Prod.Lex.left _ _ (by omega)
    | exact Prod.Lex.right _ (by omega)

/-- What follows `if` or `elif` in line `line`. -/
def conditional (finalLine : Nat) (place : Place) (line : Nat) (ts : List Token) :
    Reading Stmt ts.length := do
  let ⟨condition, rest, h₁⟩ ← Expr.parse finalLine ts
  let ⟨_, rest, h₂⟩ ← expectSymbol finalLine .colon rest
  have h₂ := lt_trans h₁ h₂
  let ⟨body, rest, h₃⟩ ← block finalLine place rest
  have h₃ := lt_trans h₂ h₃
  let thenBody := body ++ (rest.takeWhile (·.kind.isTrivia)).filterMap ofTrivia?
  match h : afterTrivia rest with
  | ⟨.keyword .elifBranch, span⟩ :: after =>
    have ha : after.length < rest.length := by
      have := afterTrivia_length rest
      simp only [h, List.length_cons] at this
      omega
    have ha := lt_trans h₃ ha
    let ⟨stmt, rest', h'⟩ ← conditional finalLine place span.line after
    return ⟨.conditional line condition thenBody [stmt], rest', lt_trans ha h'⟩
  | ⟨.keyword .elseBranch, _⟩ :: after =>
    have ha : after.length < rest.length := by
      have := afterTrivia_length rest
      simp only [h, List.length_cons] at this
      omega
    have ha := lt_trans h₃ ha
    let ⟨_, rest', h'⟩ ← expectSymbol finalLine .colon after
    have h' := lt_trans ha h'
    let ⟨elseBody, rest'', h''⟩ ← block finalLine place rest'
    return ⟨.conditional line condition thenBody elseBody, rest'', lt_trans h' h''⟩
  | _ => return ⟨.conditional line condition body [], rest, h₃⟩
termination_by (ts.length, 0)
decreasing_by
  all_goals exact Prod.Lex.left _ _ (by omega)

end

/-- The statements of a whole text. -/
def topLevel (finalLine : Nat) (ts : List Token) : Except Fault (List Stmt) :=
  match ts with
  | [] => return []
  | t :: ts =>
    if t.kind = .newline then topLevel finalLine ts
    else do
      let ⟨first, rest, _h⟩ ← statement finalLine .module t ts
      let more ← topLevel finalLine rest
      return first ++ more
termination_by ts.length

def checkModuleLevel (stmts : List Stmt) : Except Fault Unit :=
  match stmts.find? (!·.isModuleLevel) with
  | some stmt => throw (.unsupported stmt.line .moduleStatement)
  | none => return ()

/-- The program of some statements: blank lines at the end are no part of it. -/
def ofStatements (stmts : List Stmt) : Program :=
  let stmts := (stmts.reverse.dropWhile Stmt.isBlank).reverse
  ⟨stmts.takeWhile Stmt.isTrivia, stmts.dropWhile Stmt.isTrivia⟩

def read (finalLine : Nat) (ts : List Token) : Except Fault Program := do
  let stmts ← topLevel finalLine ts
  checkModuleLevel stmts
  return ofStatements stmts

/-- The error of a fault in a text with these lines. -/
def errorOf (source : List (List Char)) : Fault → Error
  | .malformed line cause => .malformed line (Text.lineText source line) cause
  | .unsupported line construct => .unsupported line construct

def isEnd (t : Token) : Bool := t.kind == .eof

/-- The program of a list of tokens, which stops at its end token. The source gives the text of
lines for messages. -/
def ofTokens (tokens : List Token) (source : String) : Except Error Program :=
  let finalLine := lineOf 1 (tokens.dropWhile (!isEnd ·))
  match read finalLine (tokens.takeWhile (!isEnd ·)) with
  | .ok program => .ok program
  | .error fault => .error (errorOf (Text.lines source) fault)

end Sketchwright.Program
