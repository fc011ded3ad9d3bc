import Sketchwright.Program.Parser
import Sketchwright.Proofs.Rendering
import Sketchwright.Sketch.Emit

/-! Programs as tokens: one logical line for each statement, blocks between an indent and a dedent,
and `elif` for an else body that is one conditional. The trees that the language has, and trees with
their line numbers left out. -/

namespace Sketchwright

open Program (Place)

section Tokens

/-- The end of a line before these statements. A comment at its end is the first of them. -/
def lineEnd : List Stmt → List TokenKind
  | .comment _ .trailing text :: _ => [.comment text, .newline]
  | _ => [.newline]

/-- What follows the tokens of a statement before these statements. -/
def Stmt.ending (stmt : Stmt) (next : List Stmt) : List TokenKind :=
  if stmt.isSimple then lineEnd next else []

/-- A block after the head that opens it. -/
def suite (body : List Stmt) (inside : List TokenKind) : List TokenKind :=
  .symbol .colon :: (lineEnd body ++ .indent :: (inside ++ [.dedent]))

/-- The rest of a conditional. An else body that is one conditional goes on with `elif`
in place of its `if`. -/
def otherwise (elseBody : List Stmt) (inside : List TokenKind) : List TokenKind :=
  if Sketch.isChain elseBody then .keyword .elifBranch :: inside.tail
  else if elseBody.isEmpty then []
  else .keyword .elseBranch :: suite elseBody inside

/-- An annotation after a name. -/
def kindTokens : Option Kind → List TokenKind
  | none => []
  | some kind => [.symbol .colon, .identifier kind.text]

def Param.tokens (param : Param) : List TokenKind := .identifier param.name :: kindTokens param.kind

def returnTokens : Option Kind → List TokenKind
  | none => []
  | some .void => [.symbol .arrow, .keyword .noneValue]
  | some kind => [.symbol .arrow, .identifier kind.text]

def FunctionHead.tokens (head : FunctionHead) : List TokenKind :=
  .keyword .define :: .identifier head.name :: .symbol .leftParen ::
    (Expr.listed (head.params.map Param.tokens) ++ .symbol .rightParen :: returnTokens head.returns)

def Target.expr : Target → Expr
  | .name id => .name id
  | .element list position => .index list position

/-- A step as it is written. -/
def stepExpr (step : Int) : Expr :=
  if step < 0 then .unary .minus (.literal (.int (-step))) else .literal (.int step)

/-- The arguments of `range`, as few as there can be. -/
def Bounds.args (bounds : Bounds) : List Expr :=
  match bounds.start with
  | none => [bounds.stop]
  | some start =>
    if bounds.step = 1 then [start, bounds.stop] else [start, bounds.stop, stepExpr bounds.step]

mutual

/-- The tokens of a statement, without the end of the line of a simple one. -/
def Stmt.tokens : Stmt → List TokenKind
  | .function _ head _ _ body => head.tokens ++ suite body (blockTokens body)
  | .assign _ target value declared _ =>
    target.expr.tokens ++ (kindTokens declared ++ .symbol .equal :: value.tokens)
  | .conditional _ condition thenBody elseBody =>
    .keyword .ifBranch :: (condition.tokens ++
      (suite thenBody (blockTokens thenBody) ++ otherwise elseBody (blockTokens elseBody)))
  | .loop _ var bounds _ body =>
    .keyword .forLoop :: .identifier var :: .keyword .inRange ::
      ((Expr.call "range" bounds.args).tokens ++ suite body (blockTokens body))
  | .expr _ value => value.tokens
  | .give _ none => [.keyword .returnValue]
  | .give _ (some value) => .keyword .returnValue :: value.tokens
  | .global _ names => .keyword .global :: Expr.listed (names.map fun name => [.identifier name])
  | .comment _ .line text => [.comment text]
  | .comment _ .block text => [.string text]
  | .comment _ .trailing _ => []
  | .blank _ => [.blankLine]
  | .pass _ => [.keyword .pass]
  | .stop _ => [.keyword .breakLoop]
  | .skip _ => [.keyword .continueLoop]

/-- The tokens of the statements of a block. -/
def blockTokens : List Stmt → List TokenKind
  | [] => []
  | stmt :: stmts => stmt.tokens ++ (stmt.ending stmts ++ blockTokens stmts)

end

def Program.tokens (p : Program) : List TokenKind :=
  blockTokens (p.header ++ p.statements) ++ [.eof]

end Tokens

section Allowed

/-- Kinds that an annotation may name. -/
def Kind.Annotates (kind : Kind) : Prop := Kind.ofAnnotation? kind.text = some kind

/-- Parameters have different names, and the functions that the runtime calls neither take nor give
anything. -/
structure FunctionHead.Allowed (head : FunctionHead) : Prop where
  distinct : (head.params.map Param.name).Nodup
  params : ∀ param ∈ head.params, ∀ kind ∈ param.kind, kind.Annotates
  returns : ∀ kind ∈ head.returns, kind = .void ∨ kind.Annotates
  isEntry : head.isEntry = entryPoints.contains head.name
  entry : head.isEntry = true → head.params = [] ∧ ∀ kind ∈ head.returns, kind = .void

structure Bounds.Allowed (bounds : Bounds) : Prop where
  start : ∀ e ∈ bounds.start, e.Named
  stop : bounds.stop.Named
  step : bounds.step ≠ 0
  /-- A step is written after a start. -/
  implicit : bounds.start = none → bounds.step = 1

mutual

/-- Statements that may stand at a place, with the slots for inference empty. -/
inductive Stmt.Allowed : Place → Stmt → Prop
  | function {place line head body} (hplace : place.inFunction = false) (hhead : head.Allowed)
      (hbody : AllowedAll .function true body) :
      Stmt.Allowed place (.function line head none [] body)
  | assign {place line target value} (htarget : target.expr.Named) (hvalue : value.Named) :
      Stmt.Allowed place (.assign line target value none .unresolved)
  | annotated {place line id value kind} (hid : (Expr.name id).Named) (hkind : kind.Annotates)
      (hvalue : value.Named) :
      Stmt.Allowed place (.assign line (.name id) value (some kind) .unresolved)
  | conditional {place line condition thenBody elseBody} (hcondition : condition.Named)
      (hthen : AllowedAll place true thenBody) (helse : AllowedAll place true elseBody) :
      Stmt.Allowed place (.conditional line condition thenBody elseBody)
  | loop {place line var bounds body} (hbounds : bounds.Allowed)
      (hbody : AllowedAll { place with inLoop := true } true body) :
      Stmt.Allowed place (.loop line var bounds .unresolved body)
  | expr {place line value} (hvalue : value.Named) (htext : Sketch.isStringLiteral value = false) :
      Stmt.Allowed place (.expr line value)
  | give {place line value} (hplace : place.inFunction = true) (hvalue : ∀ e ∈ value, e.Named) :
      Stmt.Allowed place (.give line value)
  | global {place line names} (hplace : place.inFunction = true) (hnames : names ≠ []) :
      Stmt.Allowed place (.global line names)
  | line {place line text} : Stmt.Allowed place (.comment line .line text)
  | block {place line text} : Stmt.Allowed place (.comment line .block text)
  | blank {place line} : Stmt.Allowed place (.blank line)
  | pass {place line} : Stmt.Allowed place (.pass line)
  | stop {place line} (hplace : place.inLoop = true) : Stmt.Allowed place (.stop line)
  | skip {place line} (hplace : place.inLoop = true) : Stmt.Allowed place (.skip line)

/-- The same for a list of statements. A comment at the end of a line may start it where `noted`
holds, and may stand after simple statements. -/
inductive AllowedAll : Place → Bool → List Stmt → Prop
  | nil {place noted} : AllowedAll place noted []
  | note {place line text stmts} (hstmts : AllowedAll place false stmts) :
      AllowedAll place true (.comment line .trailing text :: stmts)
  | cons {place noted stmt stmts} (hstmt : stmt.Allowed place)
      (hstmts : AllowedAll place stmt.isSimple stmts) : AllowedAll place noted (stmt :: stmts)

end

/-- Programs of the language, before inference. The comments at the start are the header, and no
blank line comes last. -/
structure Program.Allowed (p : Program) : Prop where
  stmts : AllowedAll .module false (p.header ++ p.statements)
  moduleLevel : ∀ stmt ∈ p.statements, stmt.isModuleLevel = true
  header : ∀ stmt ∈ p.header, stmt.isTrivia = true
  first : ∀ stmt ∈ p.statements.head?, stmt.isTrivia = false
  last : ∀ stmt ∈ (p.header ++ p.statements).getLast?, stmt.isBlank = false

end Allowed

section Unlined

mutual

/-- A statement with all line numbers left out. -/
def Stmt.unlined : Stmt → Stmt
  | .function _ head signature hoisted body => .function 0 head signature hoisted (unlinedAll body)
  | .assign _ target value declared binding => .assign 0 target value declared binding
  | .conditional _ condition thenBody elseBody =>
    .conditional 0 condition (unlinedAll thenBody) (unlinedAll elseBody)
  | .loop _ var bounds binding body => .loop 0 var bounds binding (unlinedAll body)
  | .expr _ value => .expr 0 value
  | .give _ value => .give 0 value
  | .global _ names => .global 0 names
  | .comment _ style text => .comment 0 style text
  | .blank _ => .blank 0
  | .pass _ => .pass 0
  | .stop _ => .stop 0
  | .skip _ => .skip 0

def unlinedAll : List Stmt → List Stmt
  | [] => []
  | stmt :: stmts => stmt.unlined :: unlinedAll stmts

end

def Program.unlined (p : Program) : Program := ⟨unlinedAll p.header, unlinedAll p.statements⟩

theorem unlinedAll_eq_map (stmts : List Stmt) : unlinedAll stmts = stmts.map Stmt.unlined := by
  induction stmts with
  | nil => rfl
  | cons stmt stmts ih => rw [unlinedAll, List.map_cons, ih]

theorem unlinedAll_append (stmts more : List Stmt) :
    unlinedAll (stmts ++ more) = unlinedAll stmts ++ unlinedAll more := by
  simp only [unlinedAll_eq_map, List.map_append]

variable (stmt : Stmt) (stmts : List Stmt)

@[simp] theorem isBlank_unlined : stmt.unlined.isBlank = stmt.isBlank := by cases stmt <;> rfl

@[simp] theorem isTrivia_unlined : stmt.unlined.isTrivia = stmt.isTrivia := by cases stmt <;> rfl

@[simp] theorem isModuleLevel_unlined : stmt.unlined.isModuleLevel = stmt.isModuleLevel := by
  cases stmt <;> rfl

/-- How statements are split into a program does not depend on their lines. -/
theorem ofStatements_unlined :
    (Program.ofStatements stmts).unlined = Program.ofStatements (unlinedAll stmts) := by
  have hblank : Stmt.isBlank ∘ Stmt.unlined = Stmt.isBlank := funext isBlank_unlined
  have htrivia : Stmt.isTrivia ∘ Stmt.unlined = Stmt.isTrivia := funext isTrivia_unlined
  simp only [Program.ofStatements, Program.unlined, unlinedAll_eq_map, ← List.map_reverse,
    List.dropWhile_map, List.takeWhile_map, hblank, htrivia]

theorem checkModuleLevel_eq_ok (h : ∀ stmt ∈ stmts, stmt.isModuleLevel = true) :
    Program.checkModuleLevel stmts = .ok () := by
  unfold Program.checkModuleLevel
  rw [List.find?_eq_none.mpr fun stmt hstmt => by simp [h stmt hstmt]]
  rfl

end Unlined

end Sketchwright
