import Sketchwright.Inference.Body

/-! Inference of a program: the assignments of the module in their order, then the functions in
rounds. A function that stalls is tried again in the next round, and the rounds go on as long as one
of them finishes a function or fills a slot. -/

namespace Sketchwright.Inference

/-- A function that is not finished. -/
structure Task where
  line : Nat
  head : FunctionHead
  body : List Stmt

def tasksOf (stmts : List Stmt) : List Task :=
  stmts.filterMap fun
    | .function line head _ _ body => some ⟨line, head, body⟩
    | _ => none

/-- The functions of a program as their headers describe them. -/
def collect (table : CallTable) (seen : Functions) : List Task → Except Error Functions
  | [] => return seen
  | task :: tasks => do
    let name := task.head.name
    if seen.contains name then throw (.unsupported task.line (.redefinedFunction name))
    if table.isKnown name then throw (.unsupported task.line (.runtimeFunction name))
    collect table (seen ++ [.ofHead task.line task.head]) tasks

/-- The scope in which the body of a function starts. -/
def bodyScope (globals : Variables) (task : Task) (kinds : List Kind) : Scope :=
  (task.head.params.zip kinds).foldl (fun scope (param, kind) =>
    scope.declare param.name kind task.line) (.function globals task.line)

/-- One attempt at a function: the function with its slots filled. -/
def inferFunction (table : CallTable) (globals : Variables) (task : Task) : Infer Stmt := do
  let name := task.head.name
  match (← get).functions.find? name with
  | none => internal task.line (.noSignatureFor name)
  | some slots =>
    match slots.openParam? with
    | some param =>
      throw (.pending (.unsupported slots.line (.unknownParameterKind param name)))
    | none =>
      let params := slots.paramKinds
      modifyFrame fun _ => .ofScope (bodyScope globals task params)
      let env : Env := ⟨table, some ⟨name, task.head.isEntry, slots.returns⟩⟩
      let body ← inferBlock env task.body
      let frame := (← get).frame
      let returns := (slots.returns <|> frame.returned).getD .void
      modify fun s =>
        { s with
          functions := s.functions.update name fun slots => { slots with returns := some returns } }
      emit (.signature name params returns frame.hoisted.length)
      return .function task.line task.head (some ⟨params, returns⟩) frame.hoisted body

/-- What a round achieves: the finished functions, the rest, and what the first of the rest waits
for. -/
structure Progress where
  finished : List (String × Stmt)
  remaining : List Task
  blocker : Option Error

/-- Tries every task once. -/
def round (table : CallTable) (globals : Variables) : List Task → Infer Progress
  | [] => return ⟨[], [], none⟩
  | task :: tasks => do
    match ← attempt (inferFunction table globals task) with
    | .ok stmt =>
      let progress ← round table globals tasks
      return { progress with finished := (task.head.name, stmt) :: progress.finished }
    | .error blocker =>
      let progress ← round table globals tasks
      return { progress with remaining := task :: progress.remaining, blocker := some blocker }

/-- Rounds until nothing remains. Each round has fewer tasks or fewer open slots than the one
before; the first round that has not ends the run with what it waits for. -/
def rounds (table : CallTable) (globals : Variables) (tasks : List Task) (s : State) :
    Except Stall (List (String × Stmt)) × State :=
  match (round table globals tasks).run s with
  | (.error stall, s') => (.error stall, s')
  | (.ok progress, s') =>
    match progress.blocker with
    | none => (.ok progress.finished, s')
    | some blocker =>
      if progress.remaining.length + s'.functions.unresolved <
          tasks.length + s.functions.unresolved then
        let (more, last) := rounds table globals progress.remaining s'
        (more.map (progress.finished ++ ·), last)
      else (.error (.pending blocker), s')
termination_by tasks.length + s.functions.unresolved

/-- The assignments of the module. -/
def inferGlobals (table : CallTable) : List Stmt → Infer (List Stmt)
  | [] => return []
  | stmt :: stmts => do
    let stmt ← match stmt with
      | .assign .. => inferStmt ⟨table, none⟩ stmt
      | stmt => pure stmt
    return stmt :: (← inferGlobals table stmts)

/-- Puts finished functions into their places. -/
def place (finished : List (String × Stmt)) : Stmt → Stmt
  | .function line head signature hoisted body =>
    (finished.lookup head.name).getD (.function line head signature hoisted body)
  | stmt => stmt

/-- The statements of a module with their slots filled, and the number of globals. -/
def inferModule (table : CallTable) (stmts : List Stmt) : Infer (List Stmt × Nat) := do
  let stmts ← inferGlobals table stmts
  let globals := (← getScope).locals
  let finished ← fun s => rounds table globals (tasksOf stmts) s
  return (stmts.map (place finished), globals.length)

def missingEntryPoints (fs : Functions) : List Event :=
  (entryPoints.filter (!fs.contains ·)).map .missingEntryPoint

/-- The program with its slots filled, and what inference reports. -/
def infer (table : CallTable) (program : Program) : Except Error Program × List Event :=
  match collect table [] (tasksOf program.statements) with
  | .error error => (.error error, [])
  | .ok functions =>
    match (inferModule table program.statements).run ⟨functions, .ofScope .module, []⟩ with
    | (.error stall, s) => (.error stall.error, s.events)
    | (.ok (statements, globals), s) =>
      (.ok { program with statements },
        s.events ++ missingEntryPoints s.functions ++ [.inferred globals s.functions.length])

end Sketchwright.Inference
