import Sketchwright.Token.Reading

/-! The grammar of expressions, from the loosest binding to the tightest: comparison, sum, product,
sign, power, call and subscript, literal. Each level reads a nonempty run of tokens, so the levels
can call each other without end only on ever shorter lists. -/

namespace Sketchwright.Expr

open Reading

def comparisonOp? : TokenKind → Option BinOp
  | .symbol .equalEqual => some .eq
  | .symbol .notEqual => some .ne
  | .symbol .less => some .lt
  | .symbol .lessEqual => some .le
  | .symbol .greater => some .gt
  | .symbol .greaterEqual => some .ge
  | _ => none

def sumOp? : TokenKind → Option BinOp
  | .symbol .plus => some .add
  | .symbol .minus => some .sub
  | _ => none

def productOp? : TokenKind → Option BinOp
  | .symbol .star => some .mul
  | .symbol .slash => some .div
  | .symbol .doubleSlash => some .floorDiv
  | .symbol .percent => some .mod
  | _ => none

/-- Operators of the full language that would go on with an expression. -/
def continuation? : TokenKind → Option Construct
  | .keyword .and | .keyword .or => some .booleanOperator
  | .keyword .is | .keyword .inRange | .keyword .not => some .membershipTest
  | .keyword .ifBranch => some .conditionalExpression
  | _ => none

/-- Marks that change the meaning of a string literal right after them. -/
def literalMarks : List String := ["f", "b", "r", "u", "rb", "br", "fr", "rf"]

/-- Whether a name is such a mark: the next token is a string that touches it. -/
def isLiteralMark (t : Token) (word : String) : List Token → Bool
  | next :: _ =>
    next.kind.isString && next.span.first == t.span.stop &&
      literalMarks.contains (String.ofList (word.toList.map Char.toLower))
  | [] => false

/-- The names after the points of a dotted name. -/
def dotted (finalLine : Nat) (path : String) : (ts : List Token) → Reading String (ts.length + 1)
  | ⟨.symbol .dot, _⟩ :: t :: ts =>
    match t.kind with
    | .identifier word => do
      let ⟨path, rest, h⟩ ← dotted finalLine (path ++ "." ++ word) ts
      return ⟨path, rest, by simp only [List.length_cons]; omega⟩
    | _ => throw (unexpected finalLine .identifier (t :: ts))
  | [⟨.symbol .dot, _⟩] => throw (unexpected finalLine .identifier [])
  | ts => return ⟨path, ts, length_lt ts⟩

/-- What a call, a subscript or a point after a subscripted or called name would apply to. -/
def appliesToComputed : TokenKind → Bool
  | .symbol .leftParen | .symbol .leftBracket | .symbol .dot => true
  | _ => false

/-- Arguments that are passed in another way than by position. -/
def unsupportedArgument? (ts : List Token) : Option Construct :=
  match kindOf ts, kindOf ts.tail with
  | .identifier _, .symbol .equal => some .keywordArgument
  | .symbol .star, _ | .symbol .doubleStar, _ => some .argumentUnpacking
  | _, _ => none

mutual

def parse (finalLine : Nat) (ts : List Token) : Reading Expr ts.length := do
  let ⟨e, rest, h⟩ ← comparison finalLine ts
  match continuation? (kindOf rest) with
  | some construct => throw (.unsupported (lineOf finalLine rest) construct)
  | none => return ⟨e, rest, h⟩
termination_by (ts.length, 5)

def comparison (finalLine : Nat) (ts : List Token) : Reading Expr ts.length := do
  let ⟨left, rest, h⟩ ← sum finalLine ts
  match comparisonOp? (kindOf rest) with
  | none => return ⟨left, rest, h⟩
  | some op =>
    let ⟨right, rest', h'⟩ ← sum finalLine rest.tail
    match comparisonOp? (kindOf rest') with
    | some _ => throw (.unsupported (lineOf finalLine rest') .chainedComparison)
    | none =>
      return ⟨.binary left op right, rest', lt_of_tail h h'⟩
termination_by (ts.length, 4)

def sum (finalLine : Nat) (ts : List Token) : Reading Expr ts.length := do
  let ⟨left, rest, h⟩ ← product finalLine ts
  let ⟨e, rest', h'⟩ ← sumTail finalLine left rest
  return ⟨e, rest', lt_of_rest h h'⟩
termination_by (ts.length, 3)

/-- The further terms of a sum. -/
def sumTail (finalLine : Nat) (left : Expr) (ts : List Token) : Reading Expr (ts.length + 1) :=
  match ts with
  | [] => return ⟨left, [], nil_lt⟩
  | t :: ts =>
    match sumOp? t.kind with
    | none => return ⟨left, t :: ts, cons_lt t ts⟩
    | some op => do
      let ⟨right, rest, h⟩ ← product finalLine ts
      let ⟨e, rest', h'⟩ ← sumTail finalLine (.binary left op right) rest
      return ⟨e, rest', lt_cons_of_rest t h h'⟩
termination_by (ts.length, 0)

def product (finalLine : Nat) (ts : List Token) : Reading Expr ts.length := do
  let ⟨left, rest, h⟩ ← signed finalLine ts
  let ⟨e, rest', h'⟩ ← productTail finalLine left rest
  return ⟨e, rest', lt_of_rest h h'⟩
termination_by (ts.length, 2)

/-- The further factors of a product. -/
def productTail (finalLine : Nat) (left : Expr) (ts : List Token) :
    Reading Expr (ts.length + 1) :=
  match ts with
  | [] => return ⟨left, [], nil_lt⟩
  | t :: ts =>
    match productOp? t.kind with
    | none => return ⟨left, t :: ts, cons_lt t ts⟩
    | some op => do
      let ⟨right, rest, h⟩ ← signed finalLine ts
      let ⟨e, rest', h'⟩ ← productTail finalLine (.binary left op right) rest
      return ⟨e, rest', lt_cons_of_rest t h h'⟩
termination_by (ts.length, 0)

def signed (finalLine : Nat) (ts : List Token) : Reading Expr ts.length :=
  match ts with
  | [] => throw (unexpected finalLine .expression [])
  | t :: ts =>
    match t.kind with
    | .symbol .minus => do
      let ⟨e, rest, h⟩ ← signed finalLine ts
      return ⟨.unary .minus e, rest, lt_cons t h⟩
    | .symbol .plus => do
      let ⟨e, rest, h⟩ ← signed finalLine ts
      return ⟨.unary .plus e, rest, lt_cons t h⟩
    | .keyword .not => throw (.unsupported t.line .negation)
    | _ => do
      let ⟨base, rest, h⟩ ← applied finalLine t ts
      match kindOf rest with
      | .symbol .doubleStar =>
        let ⟨exponent, rest', h'⟩ ← signed finalLine rest.tail
        return ⟨.binary base .pow exponent, rest', by
          have := List.length_tail (l := rest)
          simp only [List.length_cons]
          omega⟩
      | _ => return ⟨base, rest, h⟩
termination_by (ts.length, 1)

/-- A call, a subscript, a name or a literal that starts with `t`. -/
def applied (finalLine : Nat) (t : Token) (ts : List Token) : Reading Expr (ts.length + 1) :=
  match t.kind with
  | .identifier word => do
    if unsupportedWords.contains word then throw (.unsupported t.line (.keywordExpression word))
    if isLiteralMark t word ts then throw (.unsupported t.line (.stringPrefix word))
    let ⟨path, rest, h⟩ ← dotted finalLine word ts
    let ⟨e, rest', h'⟩ ← (match kindOf rest with
      | .symbol .leftParen => do
        let ⟨args, after, ha⟩ ← arguments finalLine rest.tail
        return ⟨.call path args, after, by have := List.length_tail (l := rest); omega⟩
      | kind => do
        if path.toList.contains '.' then throw (.unsupported t.line (.attributeAccess path))
        match kind with
        | .symbol .leftBracket =>
          let ⟨position, after, ha⟩ ← parse finalLine rest.tail
          if kindOf after = .symbol .colon then throw (.unsupported t.line .slice)
          let ⟨_, after', ha'⟩ ← expectSymbol finalLine .rightBracket after
          return ⟨.index path position, after', by
            have := List.length_tail (l := rest)
            omega⟩
        | _ => return ⟨.name path, rest, h⟩ : Reading Expr (ts.length + 1))
    if appliesToComputed (kindOf rest') then throw (.unsupported t.line .computedCallee)
    return ⟨e, rest', h'⟩
  | .integer value => return ⟨.literal (.int value), ts, length_lt ts⟩
  | .float text => return ⟨.literal (.float text), ts, length_lt ts⟩
  | .string text => return ⟨.literal (.str text), ts, length_lt ts⟩
  | .keyword .trueValue => return ⟨.literal (.bool true), ts, length_lt ts⟩
  | .keyword .falseValue => return ⟨.literal (.bool false), ts, length_lt ts⟩
  | .keyword .noneValue => throw (.unsupported t.line .noneValue)
  | .symbol .leftParen => do
    if kindOf ts = .symbol .rightParen then throw (.unsupported t.line .tuple)
    let ⟨e, rest, h⟩ ← parse finalLine ts
    if kindOf rest = .symbol .comma then throw (.unsupported t.line .tuple)
    let ⟨_, rest', h'⟩ ← expectSymbol finalLine .rightParen rest
    return ⟨e, rest', by omega⟩
  | .symbol .leftBracket => do
    let ⟨items, rest, h⟩ ← listItems finalLine t.line ts
    return ⟨.list items, rest, h⟩
  | .symbol .leftBrace => throw (.unsupported t.line .dictionary)
  | _ => throw (unexpected finalLine .expression (t :: ts))
termination_by (ts.length, 7)
decreasing_by
  all_goals
    simp only [Prod.lex_def, List.length_tail, true_and]
    omega

/-- The arguments of a call up to the closing parenthesis. -/
def arguments (finalLine : Nat) (ts : List Token) : Reading (List Expr) (ts.length + 1) :=
  match kindOf ts with
  | .symbol .rightParen => return ⟨[], ts.tail, by have := List.length_tail (l := ts); omega⟩
  | _ => do
    match unsupportedArgument? ts with
    | some construct => throw (.unsupported (lineOf finalLine ts) construct)
    | none =>
      let ⟨e, rest, h⟩ ← parse finalLine ts
      match kindOf rest with
      | .symbol .comma =>
        let ⟨es, rest', h'⟩ ← arguments finalLine rest.tail
        return ⟨e :: es, rest', by have := List.length_tail (l := rest); omega⟩
      | _ =>
        let ⟨_, rest', h'⟩ ← expectSymbol finalLine .rightParen rest
        return ⟨[e], rest', by omega⟩
termination_by (ts.length, 6)

/-- The items of a list that opens in line `line`, up to the closing bracket. -/
def listItems (finalLine line : Nat) (ts : List Token) : Reading (List Expr) (ts.length + 1) :=
  match kindOf ts with
  | .symbol .rightBracket => return ⟨[], ts.tail, by have := List.length_tail (l := ts); omega⟩
  | _ => do
    let ⟨e, rest, h⟩ ← parse finalLine ts
    match kindOf rest with
    | .symbol .comma =>
      let ⟨es, rest', h'⟩ ← listItems finalLine line rest.tail
      return ⟨e :: es, rest', by have := List.length_tail (l := rest); omega⟩
    | .keyword .forLoop => throw (.unsupported line .comprehension)
    | _ =>
      let ⟨_, rest', h'⟩ ← expectSymbol finalLine .rightBracket rest
      return ⟨[e], rest', by omega⟩
termination_by (ts.length, 6)

end

end Sketchwright.Expr
