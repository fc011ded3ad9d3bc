import Sketchwright.Program
import Sketchwright.Sketch.Expr
import Sketchwright.Sketch.Line

/-! The lines of a sketch from a program whose slots are filled. -/

namespace Sketchwright.Sketch

def targetText (style : Style) (line : Nat) : Target → Writing String
  | .name id => .ok id
  | .element list position => do
    let text ← expression style line position
    return list ++ "[" ++ text ++ "]"

def assignment (style : Style) (line : Nat) (target : Target) (value : Expr) (binding : Binding) :
    Writing String := do
  let target ← targetText style line target
  match binding with
  | .declare (.list element length) =>
    match value with
    | .list items =>
      let texts ← expressions style line items
      let name ← typeName style element line
      return name ++ " " ++ target ++ "[" ++ toString length ++ "] = \x7b" ++
        ", ".intercalate texts ++ "\x7d;"
    | _ => .error (.internal line (.arrayWithoutItems target))
  | .declare kind =>
    let name ← typeName style kind line
    let text ← expression style line value
    return name ++ " " ++ target ++ " = " ++ text ++ ";"
  | .reassign =>
    let text ← expression style line value
    return target ++ " = " ++ text ++ ";"
  | .unresolved => .error (.internal line (.assignmentUnresolved target))

/-- The test and the update of a counted loop, by the sign of its step. -/
def advanceText (var : String) (step : Int) : String × String :=
  if step = 1 then ("<", var ++ "++")
  else if step = -1 then (">", var ++ "--")
  else if 0 < step then ("<", var ++ " += " ++ toString step)
  else (">", var ++ " -= " ++ toString step.natAbs)

def loopHeader (style : Style) (line : Nat) (var : String) (bounds : Bounds) (binding : Binding) :
    Writing String := do
  let start ← match bounds.start with
    | some start => expression style line start
    | none => pure "0"
  let stop ← expression style line bounds.stop
  let first ← match binding with
    | .declare kind => do
      let name ← typeName style kind line
      pure (name ++ " " ++ var ++ " = " ++ start)
    | .reassign => pure (var ++ " = " ++ start)
    | .unresolved => throw (.internal line (.loopUnresolved var))
  let (test, update) := advanceText var bounds.step
  return "for (" ++ first ++ "; " ++ var ++ " " ++ test ++ " " ++ stop ++ "; " ++ update ++ ") \x7b"

/-- One call for each printed text, with a blank between two; the last one ends the line. -/
def printLines : List String → List String
  | [] => ["Serial.println();"]
  | [text] => ["Serial.println(" ++ text ++ ");"]
  | text :: texts =>
    ("Serial.print(" ++ text ++ ");") :: "Serial.print(\" \");" :: printLines texts

def isPrint (style : Style) (callee : String) : Bool :=
  (style.table.call? callee).any (·.form == .print)

/-- The lines of an expression that is a statement. -/
def exprLines (style : Style) (line : Nat) (value : Expr) : Writing (List String) := do
  match value with
  | .call callee args =>
    if isPrint style callee then return printLines (← expressions style line args)
    return [(← expression style line value) ++ ";"]
  | _ => return [(← expression style line value) ++ ";"]

def parameterTexts (style : Style) (line : Nat) : List Param → List Kind → Writing (List String)
  | param :: params, kind :: kinds => do
    let name ← typeName style kind line
    return (name ++ " " ++ param.name) :: (← parameterTexts style line params kinds)
  | _, _ => return []

def functionHeader (style : Style) (line : Nat) (head : FunctionHead) (signature : Signature) :
    Writing String := do
  let returns ← if head.isEntry then pure "void" else typeName style signature.returns line
  let params ← parameterTexts style line head.params signature.params
  return returns ++ " " ++ head.name ++ "(" ++ ", ".intercalate params ++ ") \x7b"

/-- The declarations of hoisted names. -/
def declarations (style : Style) (line : Nat) : List (String × Kind) → Writing (List String)
  | [] => return []
  | (name, kind) :: rest => do
    let type ← typeName style kind line
    return (type ++ " " ++ name ++ ";") :: (← declarations style line rest)

/-- An else body that goes on with the chain of conditions. -/
def isChain : List Stmt → Bool
  | [.conditional ..] => true
  | _ => false

mutual

/-- Adds the lines of a statement to a page. A conditional that goes on with a chain starts with
`opening`. -/
def emitStmt (style : Style) (depth : Nat) (opening : String) : Stmt → Page → Writing Page
  | .function line head signature hoisted body, page => do
    match signature with
    | none => throw (.internal line (.signatureMissing head.name))
    | some signature =>
      let header ← functionHeader style line head signature
      let names ← declarations style line hoisted
      let page := page.pushCode depth header
      match body with
      | .comment _ .trailing text :: rest =>
        let page := (page.note text).pushCodes (depth + 1) names
        let page ← emitBlock style (depth + 1) "" true rest page
        return page.pushCode depth "\x7d"
      | body =>
        let page ← emitBlock style (depth + 1) "" true body (page.pushCodes (depth + 1) names)
        return page.pushCode depth "\x7d"
  | .assign line target value _ binding, page => do
    return page.pushCode depth (← assignment style line target value binding)
  | .conditional line condition thenBody elseBody, page => do
    let text ← expression style line condition
    let page := page.pushCode depth (opening ++ "if (" ++ text ++ ") \x7b")
    let page ← emitBlock style (depth + 1) "" true thenBody page
    if isChain elseBody then emitBlock style depth "\x7d else " true elseBody page
    else if elseBody.isEmpty then return page.pushCode depth "\x7d"
    else
      let page := page.pushCode depth "\x7d else \x7b"
      let page ← emitBlock style (depth + 1) "" true elseBody page
      return page.pushCode depth "\x7d"
  | .loop line var bounds binding body, page => do
    let header ← loopHeader style line var bounds binding
    let page ← emitBlock style (depth + 1) "" true body (page.pushCode depth header)
    return page.pushCode depth "\x7d"
  | .expr line value, page => do
    return page.pushCodes depth (← exprLines style line value)
  | .give line (some value), page => do
    let text ← expression style line value
    return page.pushCode depth ("return " ++ text ++ ";")
  | .give _ none, page => return page.pushCode depth "return;"
  | .comment _ .block text, page => return page.push depth (.block text)
  | .comment _ _ text, page => return page.push depth (.comment text)
  | .blank _, page => return page.push depth .empty
  | .stop _, page => return page.pushCode depth "break;"
  | .skip _, page => return page.pushCode depth "continue;"
  | .global _ _, page => return page
  | .pass _, page => return page

/-- Adds the lines of a block to a page. A comment at the end of a source line goes to the
end of the latest line, if the statement before it wrote one; `joins` says so of what
comes before the block. -/
def emitBlock (style : Style) (depth : Nat) (opening : String) (joins : Bool) :
    List Stmt → Page → Writing Page
  | [], page => return page
  | .comment _ .trailing text :: stmts, page =>
    if joins && !page.isEmpty then emitBlock style depth opening joins stmts (page.note text)
    else emitBlock style depth opening true stmts (page.push depth (.comment text))
  | stmt :: stmts, page => do
    let next ← emitStmt style depth opening stmt page
    emitBlock style depth opening (page.length < next.length) stmts next

end

/-- The lines of a sketch, the latest first. -/
def page (style : Style) (program : Program) : Writing Page := do
  let header ← emitBlock style 0 "" true program.header []
  emitBlock style 0 "" true program.statements header

/-- The text of a sketch with `width` blanks for each level of blocks. -/
def generate (style : Style) (width : Nat) (program : Program) : Writing String := do
  return (← page style program).render width

end Sketchwright.Sketch
