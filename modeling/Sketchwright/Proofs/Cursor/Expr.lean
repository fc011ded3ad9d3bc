import Sketchwright.Proofs.Cursor
import Sketchwright.Proofs.Nesting
import Sketchwright.Proofs.Trees

/-! Walks over expressions. -/

namespace Sketchwright.Cursor

open Reading Sketchwright.Expr

section Walks

variable (tokens : List Token)

/-- The names after the points of a dotted name. -/
def dotted (path : String) : Nat → Walk String
  | 0 => cutOff
  | depth + 1 => do
    let start ← get
    let kind ← currentKind tokens
    if kind = .symbol .dot then
      advance tokens
      let word ← expectIdentifier tokens
      turned start
      dotted (path ++ "." ++ word) depth
    else return path

/-- The end of a run of expressions. -/
def closed (s : Symbol) (es : List Expr) : Walk (List Expr) := do
  expectSymbol tokens s
  return es

/-- Arguments that start with a token of a kind, before one of another kind, and are
not passed by position. -/
def unsupportedKinds? : TokenKind → TokenKind → Option Construct
  | .identifier _, .symbol .equal => some .keywordArgument
  | .symbol .star, _ | .symbol .doubleStar, _ => some .argumentUnpacking
  | _, _ => none

mutual

def parse : Nat → Walk Expr
  | 0 => cutOff
  | depth + 1 => do
    let e ← comparison depth
    let line ← currentLine tokens
    let kind ← currentKind tokens
    match continuation? kind with
    | some construct => fail (.unsupported line construct)
    | none => return e

def comparison : Nat → Walk Expr
  | 0 => cutOff
  | depth + 1 => do
    let left ← sum depth
    let kind ← currentKind tokens
    match comparisonOp? kind with
    | none => return left
    | some op => do
      advance tokens
      let right ← sum depth
      let kind ← currentKind tokens
      match comparisonOp? kind with
      | some _ => do
        let line ← currentLine tokens
        fail (.unsupported line .chainedComparison)
      | none => return .binary left op right

def sum : Nat → Walk Expr
  | 0 => cutOff
  | depth + 1 => do
    let left ← product depth
    sumLoop left depth

def sumLoop (left : Expr) : Nat → Walk Expr
  | 0 => cutOff
  | depth + 1 => do
    let start ← get
    let kind ← currentKind tokens
    match sumOp? kind with
    | none => return left
    | some op => do
      advance tokens
      let right ← product depth
      turned start
      sumLoop (.binary left op right) depth

def product : Nat → Walk Expr
  | 0 => cutOff
  | depth + 1 => do
    let left ← signed depth
    productLoop left depth

def productLoop (left : Expr) : Nat → Walk Expr
  | 0 => cutOff
  | depth + 1 => do
    let start ← get
    let kind ← currentKind tokens
    match productOp? kind with
    | none => return left
    | some op => do
      advance tokens
      let right ← signed depth
      turned start
      productLoop (.binary left op right) depth

def signed : Nat → Walk Expr
  | 0 => cutOff
  | depth + 1 => do
    let kind ← currentKind tokens
    if kind = .symbol .minus then
      advance tokens
      let e ← signed depth
      return .unary .minus e
    else if kind = .symbol .plus then
      advance tokens
      let e ← signed depth
      return .unary .plus e
    else if kind = .keyword .not then
      let line ← currentLine tokens
      fail (.unsupported line .negation)
    else power depth

def power : Nat → Walk Expr
  | 0 => cutOff
  | depth + 1 => do
    let base ← applied depth
    let kind ← currentKind tokens
    if kind = .symbol .doubleStar then
      advance tokens
      let exponent ← signed depth
      return .binary base .pow exponent
    else return base

def applied : Nat → Walk Expr
  | 0 => cutOff
  | depth + 1 => do
    let t ← current tokens
    match t.kind with
    | .identifier word => do
      refuse (unsupportedWords.contains word) (.unsupported t.line (.keywordExpression word))
      let pos ← get
      refuse (isLiteralMark t word (tokens[pos + 1]?).toList)
        (.unsupported t.line (.stringPrefix word))
      advance tokens
      let path ← dotted tokens word depth
      let e ← selected t.line path depth
      let kind ← currentKind tokens
      refuse (appliesToComputed kind) (.unsupported t.line .computedCallee)
      return e
    | _ => primary depth

/-- What stands after a name. -/
def selected (line : Nat) (path : String) : Nat → Walk Expr
  | 0 => cutOff
  | depth + 1 => do
    let kind ← currentKind tokens
    if kind = .symbol .leftParen then
      let args ← arguments depth
      return .call path args
    else
      refuse (path.toList.contains '.') (.unsupported line (.attributeAccess path))
      if kind = .symbol .leftBracket then
        advance tokens
        let position ← parse depth
        let kind ← currentKind tokens
        refuse (kind = .symbol .colon) (.unsupported line .slice)
        expectSymbol tokens .rightBracket
        return .index path position
      else return .name path

def arguments : Nat → Walk (List Expr)
  | 0 => cutOff
  | depth + 1 => do
    expectSymbol tokens .leftParen
    let args ← argumentsLoop [] depth
    closed tokens .rightParen args

def argumentsLoop (args : List Expr) : Nat → Walk (List Expr)
  | 0 => cutOff
  | depth + 1 => do
    let start ← get
    let kind ← currentKind tokens
    if kind = .symbol .rightParen then return args
    else
      let line ← currentLine tokens
      let next ← peek tokens 1
      match unsupportedKinds? kind next with
      | some construct => fail (.unsupported line construct)
      | none => do
        let e ← parse depth
        let kind ← currentKind tokens
        if kind = .symbol .comma then
          advance tokens
          turned start
          argumentsLoop (args ++ [e]) depth
        else
          turned start
          return args ++ [e]

def primary : Nat → Walk Expr
  | 0 => cutOff
  | depth + 1 => do
    let t ← current tokens
    match t.kind with
    | .integer value => do
      advance tokens
      return .literal (.int value)
    | .float text => do
      advance tokens
      return .literal (.float text)
    | .string text => do
      advance tokens
      return .literal (.str text)
    | .keyword .trueValue => do
      advance tokens
      return .literal (.bool true)
    | .keyword .falseValue => do
      advance tokens
      return .literal (.bool false)
    | .keyword .noneValue => fail (.unsupported t.line .noneValue)
    | .symbol .leftParen => do
      advance tokens
      let kind ← currentKind tokens
      refuse (kind = .symbol .rightParen) (.unsupported t.line .tuple)
      let e ← parse depth
      let kind ← currentKind tokens
      refuse (kind = .symbol .comma) (.unsupported t.line .tuple)
      expectSymbol tokens .rightParen
      return e
    | .symbol .leftBracket => list depth
    | .symbol .leftBrace => fail (.unsupported t.line .dictionary)
    | _ => unexpected tokens .expression

def list : Nat → Walk Expr
  | 0 => cutOff
  | depth + 1 => do
    let line ← currentLine tokens
    expectSymbol tokens .leftBracket
    let items ← itemsLoop line [] depth
    let items ← closed tokens .rightBracket items
    return .list items

def itemsLoop (line : Nat) (items : List Expr) : Nat → Walk (List Expr)
  | 0 => cutOff
  | depth + 1 => do
    let start ← get
    let kind ← currentKind tokens
    if kind = .symbol .rightBracket then return items
    else
      let e ← parse depth
      let kind ← currentKind tokens
      if kind = .symbol .comma then
        advance tokens
        turned start
        itemsLoop line (items ++ [e]) depth
      else if kind = .keyword .forLoop then fail (.unsupported line .comprehension)
      else
        turned start
        return items ++ [e]

end

end Walks

/-- The expression has no negative literals: a sign before a number is not part of the number. -/
def Counts (e : Expr) : Prop := ∀ value, .literal (.int value) ∈ e.parts → 0 ≤ value

/-- The walk has the expression of the reader. -/
def Same (e e' : Expr) : Prop := e' = e ∧ Counts e

/-- The walk has the expressions of the reader after others. -/
def Added (before es es' : List Expr) : Prop := es' = before ++ es ∧ ∀ e ∈ es, Counts e

namespace Counts

variable {e left right : Expr} {args items : List Expr}

theorem unary {sign : Sign} (h : Counts e) : Counts (.unary sign e) := by
  intro value hpart
  simp only [Expr.parts, List.mem_cons, reduceCtorEq, false_or] at hpart
  exact h value hpart

theorem binary {op : BinOp} (hleft : Counts left) (hright : Counts right) :
    Counts (.binary left op right) := by
  intro value hpart
  simp only [Expr.parts, List.mem_cons, reduceCtorEq, false_or, List.mem_append] at hpart
  exact hpart.elim (hleft value) (hright value)

theorem index {name : String} (h : Counts e) : Counts (.index name e) := by
  intro value hpart
  simp only [Expr.parts, List.mem_cons, reduceCtorEq, false_or] at hpart
  exact h value hpart

theorem call {callee : String} (h : ∀ e ∈ args, Counts e) : Counts (.call callee args) := by
  intro value hpart
  simp only [Expr.parts, List.mem_cons, reduceCtorEq, false_or, mem_partsAll] at hpart
  obtain ⟨e, he, hpart⟩ := hpart
  exact h e he value hpart

theorem of_call {callee : String} (h : Counts (.call callee args)) : ∀ e ∈ args, Counts e :=
  fun e he value hpart =>
  h value (List.mem_cons_of_mem _ (mem_partsAll.mpr ⟨e, he, hpart⟩))

theorem list (h : ∀ e ∈ items, Counts e) : Counts (.list items) := by
  intro value hpart
  simp only [Expr.parts, List.mem_cons, reduceCtorEq, false_or, mem_partsAll] at hpart
  obtain ⟨e, he, hpart⟩ := hpart
  exact h e he value hpart

theorem name {name : String} : Counts (.name name) := by
  intro value hpart
  simp [Expr.parts] at hpart

theorem literal {l : Literal} (h : ∀ value, l = .int value → 0 ≤ value) : Counts (.literal l) := by
  intro value hpart
  simp only [Expr.parts, List.mem_singleton, Expr.literal.injEq] at hpart
  exact h value hpart.symm

end Counts

section Follows

variable {track : Track}

theorem dotted_follows {path : String} {ts : List Token} :
    Follows track ts (Cursor.dotted track.tokens path)
    (Expr.dotted track.stop.line path ts) fun path path' => path' = path := by
  refine .deeper ?_
  simp only [Cursor.dotted]
  fun_induction Expr.dotted track.stop.line path ts with
  | case1 path span t ts word hword ih =>
    refine .get fun hts =>
      .currentKind (.yes rfl (.advance (by simp [kindOf]) (.identifier hword ?_)))
    refine .turned hts ?_ (.last (.deeper ?_) fun _ _ _ _ _ h => .pure h)
    · simp only [List.length_cons]
      omega
    · simp only [Cursor.dotted]
      exact ih
  | case2 path span t ts hword =>
    exact .get fun _ => .currentKind (.yes rfl (.advance (by simp [kindOf]) (.noIdentifier hword)))
  | case3 =>
    exact .get fun _ => .currentKind
      (.yes rfl (.advance (by simp [kindOf]) (.noIdentifier fun _ => by simp [kindOf])))
  | case4 path ts hpair hdot =>
    refine .get fun _ => .currentKind (.no (fun h => ?_) (.pure rfl))
    cases ts with
    | nil => cases h
    | cons t ts =>
      obtain ⟨kind, span⟩ := t
      cases h
      cases ts with
      | nil => exact hdot span rfl
      | cons t ts => exact hpair span t ts rfl

theorem unsupportedArgument?_eq (ts : List Token) :
    unsupportedArgument? ts = unsupportedKinds? (kindOf ts) (track.kindAt ts 1) := by
  cases ts with
  | nil => rfl
  | cons t ts =>
    cases ts with
    | nil =>
      have hnext : track.kindAt [t] 1 = .eof := track.stops
      rw [hnext]
      rfl
    | cons u ts => rfl

theorem isLiteralMark_eq {t : Token} {ts : List Token} {word : String}
    (hts : t :: ts <:+ track.body) :
    isLiteralMark t word (track.tokens[track.place (t :: ts) + 1]?).toList =
      isLiteralMark t word ts := by
  rw [Track.getElem?_place hts]
  cases ts with
  | nil =>
    show (track.stop.kind.isString && _ && _) = false
    rw [track.stops]
    simp [TokenKind.isString]
  | cons u ts => rfl

/-- No expression starts at the end. -/
theorem applied_end : Follows track [] (Cursor.applied track.tokens)
    (throw (Reading.unexpected track.stop.line .expression []) : Reading Expr 0) Same := by
  refine .deeper ?_
  simp only [Cursor.applied]
  refine .current ?_
  simp only [List.headD_nil, track.stops]
  refine .deeper ?_
  simp only [Cursor.primary]
  refine .current ?_
  simp only [List.headD_nil, track.stops]
  exact .unexpected

-- By induction on the tokens that are left and, where a reader starts another on the same tokens,
-- on the level of the grammar. A loop passes to its next turn only tokens after an operator or a
-- comma, so that `turned` sees a move.
mutual

theorem parse_follows {ts : List Token} :
    Follows track ts (Cursor.parse track.tokens) (Expr.parse track.stop.line ts) Same := by
  refine .deeper ?_
  simp only [Cursor.parse]
  rw [Expr.parse]
  refine .bind comparison_follows ?_
  rintro _ e rest _ _ ⟨rfl, he⟩
  refine .currentLine (.currentKind ?_)
  dsimp only
  cases continuation? (kindOf rest) with
  | some construct => exact .fail
  | none => exact .pure ⟨rfl, he⟩
termination_by (ts.length, 5)

theorem comparison_follows {ts : List Token} :
    Follows track ts (Cursor.comparison track.tokens)
      (Expr.comparison track.stop.line ts) Same := by
  refine .deeper ?_
  simp only [Cursor.comparison]
  rw [Expr.comparison]
  refine .bind sum_follows ?_
  rintro _ left rest hfits _ ⟨rfl, hleft⟩
  refine .currentKind ?_
  dsimp only
  cases hop : comparisonOp? (kindOf rest) with
  | none => exact .pure ⟨rfl, hleft⟩
  | some op =>
    refine .advance (fun heof => by rw [heof] at hop; cases hop) (.bind sum_follows ?_)
    rintro _ right rest' _ _ ⟨rfl, hright⟩
    refine .currentKind ?_
    dsimp only
    cases comparisonOp? (kindOf rest') with
    | some _ => exact .currentLine .fail
    | none => exact .pure ⟨rfl, hleft.binary hright⟩
termination_by (ts.length, 4)

theorem sum_follows {ts : List Token} :
    Follows track ts (Cursor.sum track.tokens) (Expr.sum track.stop.line ts) Same := by
  refine .deeper ?_
  simp only [Cursor.sum]
  rw [Expr.sum]
  refine .bind product_follows ?_
  rintro _ left rest _ _ ⟨rfl, hleft⟩
  exact .last (sumLoop_follows hleft) fun _ _ _ _ _ h => .pure h
termination_by (ts.length, 3)

theorem sumLoop_follows {left : Expr} (hleft : Counts left) {ts : List Token} :
    Follows track ts (Cursor.sumLoop track.tokens left)
      (Expr.sumTail track.stop.line left ts) Same := by
  refine .deeper ?_
  simp only [Cursor.sumLoop]
  refine .get fun hts => .currentKind ?_
  cases ts with
  | nil =>
    rw [Expr.sumTail]
    exact .pure ⟨rfl, hleft⟩
  | cons t ts =>
    dsimp only [kindOf]
    rw [Expr.sumTail]
    cases hop : sumOp? t.kind with
    | none => exact .pure ⟨rfl, hleft⟩
    | some op =>
      refine .advance (fun heof => by rw [show t.kind = .eof from heof] at hop; cases hop)
        (.bind product_follows ?_)
      rintro _ right rest hfits _ ⟨rfl, hright⟩
      refine .turned hts (Nat.lt_succ_of_lt hfits)
        (.last (sumLoop_follows (hleft.binary hright)) ?_)
      exact fun _ _ _ _ _ h => .pure h
termination_by (ts.length, 0)
decreasing_by
  all_goals
    subst_vars
    simp only [Prod.lex_def, List.length_cons, List.tail_cons]
    omega

theorem product_follows {ts : List Token} :
    Follows track ts (Cursor.product track.tokens) (Expr.product track.stop.line ts) Same := by
  refine .deeper ?_
  simp only [Cursor.product]
  rw [Expr.product]
  refine .bind signed_follows ?_
  rintro _ left rest _ _ ⟨rfl, hleft⟩
  exact .last (productLoop_follows hleft) fun _ _ _ _ _ h => .pure h
termination_by (ts.length, 2)

theorem productLoop_follows {left : Expr} (hleft : Counts left) {ts : List Token} :
    Follows track ts (Cursor.productLoop track.tokens left)
      (Expr.productTail track.stop.line left ts) Same := by
  refine .deeper ?_
  simp only [Cursor.productLoop]
  refine .get fun hts => .currentKind ?_
  cases ts with
  | nil =>
    rw [Expr.productTail]
    exact .pure ⟨rfl, hleft⟩
  | cons t ts =>
    dsimp only [kindOf]
    rw [Expr.productTail]
    cases hop : productOp? t.kind with
    | none => exact .pure ⟨rfl, hleft⟩
    | some op =>
      refine .advance (fun heof => by rw [show t.kind = .eof from heof] at hop; cases hop)
        (.bind signed_follows ?_)
      rintro _ right rest hfits _ ⟨rfl, hright⟩
      refine .turned hts (Nat.lt_succ_of_lt hfits)
        (.last (productLoop_follows (hleft.binary hright)) ?_)
      exact fun _ _ _ _ _ h => .pure h
termination_by (ts.length, 0)
decreasing_by
  all_goals
    subst_vars
    simp only [Prod.lex_def, List.length_cons, List.tail_cons]
    omega

theorem signed_follows {ts : List Token} :
    Follows track ts (Cursor.signed track.tokens) (Expr.signed track.stop.line ts) Same := by
  refine .deeper ?_
  simp only [Cursor.signed]
  cases ts with
  | nil =>
    rw [Expr.signed]
    have hother : ∀ kind ≠ TokenKind.eof, ¬kindOf [] = kind :=
      fun kind hkind heof => hkind heof.symm
    refine .currentKind (.no (hother _ (by simp))
      (.no (hother _ (by simp)) (.no (hother _ (by simp)) (.deeper ?_))))
    simp only [Cursor.power]
    exact .halt applied_end
  | cons t ts =>
    rw [Expr.signed]
    split
    · next hminus =>
      refine .currentKind (.yes hminus
        (.advance (Follows.kind_ne hminus) (.bind signed_follows ?_)))
      rintro _ e rest _ _ ⟨rfl, he⟩
      exact .pure ⟨rfl, he.unary⟩
    · next hplus =>
      refine .currentKind (.no (Follows.kind_ne hplus) (.yes hplus ?_))
      refine .advance (Follows.kind_ne hplus) (.bind signed_follows ?_)
      rintro _ e rest _ _ ⟨rfl, he⟩
      exact .pure ⟨rfl, he.unary⟩
    · next hnot =>
      refine .currentKind (.no (Follows.kind_ne hnot) (.no (Follows.kind_ne hnot) ?_))
      exact .yes hnot (.currentLine .fail)
    · next hminus hplus hnot =>
      refine .currentKind (.no hminus (.no hplus (.no hnot ?_)))
      refine .deeper ?_
      simp only [Cursor.power]
      refine .bind applied_follows ?_
      rintro _ base rest hfits _ ⟨rfl, hbase⟩
      dsimp only
      split
      · next hpower =>
        refine .currentKind (.yes hpower
          (.advance (Follows.kind_ne hpower) (.bind signed_follows ?_)))
        rintro _ e rest' _ _ ⟨rfl, he⟩
        exact .pure ⟨rfl, hbase.binary he⟩
      · next hpower => exact .currentKind (.no hpower (.pure ⟨rfl, hbase⟩))
termination_by (ts.length, 1)
decreasing_by
  all_goals
    subst_vars
    simp only [Prod.lex_def, List.length_tail, List.length_cons]
    omega

theorem applied_follows {t : Token} {ts : List Token} :
    Follows track (t :: ts) (Cursor.applied track.tokens)
      (Expr.applied track.stop.line t ts) Same := by
  refine .assume fun hts => ?_
  refine .deeper ?_
  simp only [Cursor.applied]
  rw [Expr.applied]
  refine .current ?_
  dsimp only [List.headD_cons]
  split
  · next word hword =>
    simp only [hword]
    refine .check fun _ => .get fun _ => ?_
    rw [isLiteralMark_eq hts]
    refine .check fun _ => .advance (Follows.kind_ne hword) (.bind dotted_follows ?_)
    rintro _ path rest hfits _ rfl
    have hlength := List.length_tail (l := rest)
    refine .bind (selected_follows hfits (fun _ _ => by omega) fun _ _ _ _ => by omega) ?_
    rintro _ e rest' _ _ ⟨rfl, he⟩
    exact .currentKind (.check fun _ => .pure ⟨rfl, he⟩)
  · next hname =>
    refine .deeper ?_
    simp only [Cursor.primary]
    refine .current ?_
    dsimp only [List.headD_cons]
    split
    · next value hvalue =>
      simp only [hvalue]
      refine .advance (Follows.kind_ne hvalue) (.pure ⟨rfl, .literal ?_⟩)
      rintro _ ⟨⟩
      exact track.counts t (hts.subset List.mem_cons_self) value hvalue
    · next text htext =>
      simp only [htext]
      exact .advance (Follows.kind_ne htext) (.pure ⟨rfl, .literal (by simp)⟩)
    · next text htext =>
      simp only [htext]
      exact .advance (Follows.kind_ne htext) (.pure ⟨rfl, .literal (by simp)⟩)
    · next hkind =>
      simp only [hkind]
      exact .advance (Follows.kind_ne hkind) (.pure ⟨rfl, .literal (by simp)⟩)
    · next hkind =>
      simp only [hkind]
      exact .advance (Follows.kind_ne hkind) (.pure ⟨rfl, .literal (by simp)⟩)
    · next hkind =>
      simp only [hkind]
      exact .fail
    · next hopen =>
      simp only [hopen]
      refine .advance (Follows.kind_ne hopen)
        (.currentKind (.check fun _ => .bind parse_follows ?_))
      rintro _ e rest _ _ ⟨rfl, he⟩
      refine .currentKind (.check fun _ => .bind .expectSymbol ?_)
      intro _ _ rest' _ _ _
      exact .pure ⟨rfl, he⟩
    · next hopen =>
      simp only [hopen]
      refine .deeper ?_
      simp only [Cursor.list]
      refine .currentLine (.symbol hopen ?_)
      simp only [← bind_assoc]
      refine .bind listItems_follows ?_
      rintro _ items rest _ _ ⟨rfl, hitems⟩
      exact .pure ⟨rfl, .list hitems⟩
    · next hkind =>
      simp only [hkind]
      exact .fail
    · split <;> first | exact .unexpected | simp_all
termination_by (ts.length, 8)
decreasing_by
  all_goals
    simp only [Prod.lex_def, List.tail_cons, true_and]
    omega

theorem selected_follows {line n : Nat} {path : String} {rest : List Token} (h : rest.length < n)
    (hone : ∀ after : List Token, after.length < rest.tail.length + 1 → after.length < n)
    (htwo : ∀ after after' : List Token, after.length < rest.tail.length →
      after'.length < after.length →
      after'.length < n) :
    Follows track rest (Cursor.selected track.tokens line path)
      (match kindOf rest with
        | .symbol .leftParen => do
          let ⟨args, after, ha⟩ ← Expr.arguments track.stop.line rest.tail
          return ⟨.call path args, after, hone after ha⟩
        | kind => do
          if path.toList.contains '.' then throw (.unsupported line (.attributeAccess path))
          match kind with
          | .symbol .leftBracket =>
            let ⟨position, after, ha⟩ ← Expr.parse track.stop.line rest.tail
            if kindOf after = .symbol .colon then throw (.unsupported line .slice)
            let ⟨_, after', ha'⟩ ← Reading.expectSymbol track.stop.line .rightBracket after
            return ⟨.index path position, after', htwo after after' ha ha'⟩
          | _ => return ⟨.name path, rest, h⟩ : Reading Expr n) Same := by
  refine .deeper ?_
  simp only [Cursor.selected]
  split
  · next hopen =>
    refine .currentKind (.yes hopen ?_)
    refine .deeper ?_
    simp only [Cursor.arguments, bind_assoc]
    refine .symbol hopen ?_
    simp only [← bind_assoc]
    refine .bind arguments_follows ?_
    rintro _ args after _ _ ⟨rfl, hargs⟩
    exact .pure ⟨rfl, .call hargs⟩
  · next hopen =>
    refine .currentKind (.no hopen (.check fun _ => ?_))
    by_cases hindex : kindOf rest = .symbol .leftBracket
    · simp only [hindex]
      refine .yes trivial (.advance (Follows.kind_ne hindex) (.bind parse_follows ?_))
      rintro _ position after _ _ ⟨rfl, hposition⟩
      refine .currentKind (.check fun _ => .bind .expectSymbol ?_)
      intro _ _ after' _ _ _
      exact .pure ⟨rfl, hposition.index⟩
    · refine .no hindex ?_
      split
      · next hkind => exact absurd hkind hindex
      · exact .pure ⟨rfl, .name⟩
termination_by (rest.length, 7)
decreasing_by
  all_goals
    simp only [Prod.lex_def, List.length_tail]
    omega

theorem arguments_follows {before : List Expr} {ts : List Token} :
    Follows track ts (fun depth => Cursor.argumentsLoop track.tokens before depth >>=
      closed track.tokens .rightParen)
      (Expr.arguments track.stop.line ts) (Added before) := by
  refine .deeper ?_
  simp only [Cursor.argumentsLoop]
  rw [Expr.arguments]
  simp only [bind_assoc]
  refine .get fun hts => ?_
  split
  · next hclose =>
    refine .currentKind (.yes_bind hclose (.value (.symbol hclose ?_)))
    exact .pure ⟨(List.append_nil _).symm, List.forall_mem_nil _⟩
  · next hclose =>
    refine .currentKind (.no_bind hclose ?_)
    simp only [bind_assoc]
    refine .currentLine (.peek ?_)
    rw [← unsupportedArgument?_eq]
    cases unsupportedArgument? ts with
    | some construct => exact .fail_bind
    | none =>
      dsimp only
      simp only [bind_assoc]
      refine .bind parse_follows ?_
      rintro _ e rest hfits hrest ⟨rfl, he⟩
      have hrest' : rest.tail.length < ts.length := by
        rw [List.length_tail]
        omega
      dsimp only
      split
      · next hcomma =>
        refine .currentKind (.yes_bind hcomma ?_)
        simp only [bind_assoc]
        refine .advance (Follows.kind_ne hcomma) (.turned hts hrest' (.last arguments_follows ?_))
        rintro _ es rest' _ _ ⟨rfl, hes⟩
        exact .pure ⟨List.append_assoc .., List.forall_mem_cons.mpr ⟨he, hes⟩⟩
      · next hcomma =>
        refine .currentKind (.no_bind hcomma ?_)
        simp only [bind_assoc]
        refine .turned hts hfits (.value (.bind .expectSymbol ?_))
        intro _ _ rest' _ _ _
        exact .pure ⟨rfl, List.forall_mem_singleton.mpr he⟩
termination_by (ts.length, 6)

theorem listItems_follows {line : Nat} {before : List Expr} {ts : List Token} :
    Follows track ts
      (fun depth => Cursor.itemsLoop track.tokens line before depth >>=
        closed track.tokens .rightBracket)
      (Expr.listItems track.stop.line line ts) (Added before) := by
  refine .deeper ?_
  simp only [Cursor.itemsLoop]
  rw [Expr.listItems]
  simp only [bind_assoc]
  refine .get fun hts => ?_
  split
  · next hclose =>
    refine .currentKind (.yes_bind hclose (.value (.symbol hclose ?_)))
    exact .pure ⟨(List.append_nil _).symm, List.forall_mem_nil _⟩
  · next hclose =>
    refine .currentKind (.no_bind hclose ?_)
    simp only [bind_assoc]
    refine .bind parse_follows ?_
    rintro _ e rest hfits hrest ⟨rfl, he⟩
    have hrest' : rest.tail.length < ts.length := by
      rw [List.length_tail]
      omega
    dsimp only
    split
    · next hcomma =>
      refine .currentKind (.yes_bind hcomma ?_)
      simp only [bind_assoc]
      refine .advance (Follows.kind_ne hcomma) (.turned hts hrest' (.last listItems_follows ?_))
      rintro _ es rest' _ _ ⟨rfl, hes⟩
      exact .pure ⟨List.append_assoc .., List.forall_mem_cons.mpr ⟨he, hes⟩⟩
    · next hfor =>
        exact .currentKind (.no_bind (Follows.kind_ne hfor) (.yes_bind hfor (.fail_bind)))
    · next hcomma hfor =>
      refine .currentKind (.no_bind hcomma (.no_bind hfor ?_))
      simp only [bind_assoc]
      refine .turned hts hfits (.value (.bind .expectSymbol ?_))
      intro _ _ rest' _ _ _
      exact .pure ⟨rfl, List.forall_mem_singleton.mpr he⟩
termination_by (ts.length, 6)

end

end Follows

end Sketchwright.Cursor
