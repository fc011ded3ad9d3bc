import Sketchwright.Config.Yaml
import Sketchwright.Error.Message
import Sketchwright.Files
import Sketchwright.Translator

/-! The command line: options, then at most one input file. The program is written for any system
that can read and write; a world is the system that it is tested with and that proofs are about. -/

namespace Sketchwright.CommandLine

/-- A failure: what was being done, and the causes, the outermost first. -/
structure Failure where
  context : String
  causes : List String
  deriving DecidableEq, Repr

namespace Failure

/-- A text whose further lines are set in. -/
def setIn (margin : String) (text : String) : String :=
  ("\n" ++ margin).intercalate (text.splitOn "\n")

def numbered : Nat → List String → String
  | _, [] => ""
  | n, cause :: causes =>
    let number := toString n
    let pad := String.ofList (List.replicate (5 - number.length) ' ')
    "\n" ++ pad ++ number ++ ": " ++ setIn "       " cause ++ numbered (n + 1) causes

def text (f : Failure) : String :=
  let causes := match f.causes with
    | [] => ""
    | [cause] => "\n\nCaused by:\n    " ++ setIn "    " cause
    | causes => "\n\nCaused by:" ++ numbered 0 causes
  "Error: " ++ f.context ++ causes ++ "\n"

/-- The failure of what a failed step was a part of. -/
def within (context : String) (f : Failure) : Failure := ⟨context, f.context :: f.causes⟩

end Failure

/-- What the arguments ask for. -/
structure Request where
  config : Option String
  output : Option String
  /-- Standard input if there is none. -/
  input : Option String
  deriving DecidableEq, Repr

def noRequest : Request := ⟨none, none, none⟩

/-- Of an option that is given twice the last one counts. -/
def parse (request : Request) : List String → Except Failure Request
  | [] => .ok request
  | arg :: args =>
    if arg = "--config" ∨ arg = "-c" then
      match args with
      | path :: args => parse { request with config := some path } args
      | [] => .error ⟨"Missing configuration path after " ++ arg, []⟩
    else if arg = "--output" ∨ arg = "-o" then
      match args with
      | path :: args => parse { request with output := some path } args
      | [] => .error ⟨"Missing output path after " ++ arg, []⟩
    else if args.isEmpty then .ok { request with input := some arg }
    else .error ⟨"Only one input file is supported", []⟩

/-- What reads the text of a configuration. A text that it refuses has causes of its own. -/
abbrev Decoder := String → Except (List String) Config

/-- The configuration that a text describes, if it can be used. -/
def configOfText (decode : Decoder) (text : String) : Except Failure Config := do
  let config ← (decode text).mapError fun causes => ⟨"Parsing configuration", causes⟩
  config.validate.mapError fun error => ⟨error.message, []⟩
  return config

/-- The text that was read, if it is one. -/
def textOf (content : Except FileError ByteArray) : Except FileError String := do
  match String.fromUTF8? (← content) with
  | some text => return text
  | none => throw .notText

/-- What a run does outside of itself. -/
structure System (m : Type → Type) where
  readFile : String → m (Except FileError ByteArray)
  /-- All of standard input. -/
  readInput : m (Except FileError ByteArray)
  writeFile : String → ByteArray → m (Except FileError Unit)
  print : String → m Unit
  printError : String → m Unit

section Program

variable {m : Type → Type} [Monad m]

/-- What a computation or a step of the system has given, its error with what was being done. -/
def during {α ε : Type} (context : String) (failure : ε → Failure) (step : m (Except ε α)) :
    ExceptT Failure m α :=
  ExceptT.mk ((Except.mapError fun error => (failure error).within context) <$> step)

/-- The text that a step of the system reads. -/
def readText (context : String) (step : m (Except FileError ByteArray)) :
    ExceptT Failure m String :=
  during context (fun error => ⟨error.message, []⟩) (textOf <$> step)

variable (system : System m) (decode : Decoder)

def loadConfig (path : String) : ExceptT Failure m Config := do
  let text ← readText ("Reading configuration " ++ path) (system.readFile path)
  during ("Loading " ++ path) id (pure (configOfText decode text))

/-- The configuration at a path, or the standard one without a path. -/
def chosenConfig : Option String → ExceptT Failure m Config
  | some path => loadConfig system decode path
  | none => return default

/-- The text at a path, or standard input without a path. -/
def sourceText : Option String → ExceptT Failure m String
  | some path => readText ("Reading " ++ path) (system.readFile path)
  | none => readText "Reading stdin" system.readInput

def sourceName (request : Request) : String := request.input.getD "<stdin>"

/-- The sketch that a request asks for. -/
def sketch (request : Request) : ExceptT Failure m String := do
  let config ← chosenConfig system decode request.config
  let translator ← during "Applying configuration" (fun error => ⟨error.message, []⟩)
    (pure (Translator.ofConfig config))
  let source ← sourceText system request.input
  during ("Translating " ++ sourceName request) (fun error => ⟨error.message, []⟩)
    (pure (translator.translate source))

/-- Puts a sketch where the request wants it. -/
def deliver (request : Request) (output : String) : ExceptT Failure m Unit :=
  match request.output with
  | some path =>
    during ("Writing " ++ path) (fun error => ⟨error.message, []⟩)
      (system.writeFile path output.toUTF8)
  | none => ExceptT.lift (system.print output)

/-- The stages of a run, one after the other. -/
def stages (args : List String) : ExceptT Failure m Unit := do
  let request ← ExceptT.mk (pure (parse noRequest args))
  let output ← sketch system decode request
  deliver system request output

/-- The program with these arguments. It gives its exit code. -/
def start (args : List String) : m UInt32 := do
  match ← (stages system decode args).run with
  | .ok () => return 0
  | .error failure =>
    system.printError failure.text
    return 1

end Program

/-- What a run finds and leaves: standard input, the files, and what has been printed. -/
structure World where
  input : Except FileError ByteArray
  files : Files ByteArray
  stdout : String
  stderr : String

namespace World

def writeFile (path : String) (content : ByteArray) : StateM World (Except FileError Unit) := do
  match (← get).files.write path content with
  | .ok files =>
    modify fun world => { world with files := files }
    return .ok ()
  | .error error => return .error error

def system : System (StateM World) where
  readFile path := do return (← get).files.read path
  readInput := do return (← get).input
  writeFile := writeFile
  print text := modify fun world => { world with stdout := world.stdout ++ text }
  printError text := modify fun world => { world with stderr := world.stderr ++ text }

end World

/-- What a run leaves behind. -/
structure Outcome (α : Type) where
  exit : Nat
  stdout : String
  stderr : String
  files : Files α
  deriving DecidableEq

/-- A run with these arguments, standard input and files. -/
def outcome (decode : Decoder) (args : List String) (input : Except FileError ByteArray)
    (files : Files ByteArray) : Outcome ByteArray :=
  let (exit, world) := (start World.system decode args).run ⟨input, files, "", ""⟩
  ⟨exit.toNat, world.stdout, world.stderr, world.files⟩

/-- The reader of configurations. It has nothing to say about a text that it refuses. -/
def readYaml : Decoder := fun text =>
  match Config.ofYaml? text with
  | some config => .ok config
  | none => .error []

/-- A run on texts: standard input and all files hold text. -/
def run (args : List String) (stdin : String) (files : Files String) : Outcome String :=
  let ended := outcome readYaml args (.ok stdin.toUTF8)
    (files.map fun (path, text) => (path, text.toUTF8))
  { ended with files := ended.files.map fun (path, content) =>
      (path, (String.fromUTF8? content).getD "") }

end Sketchwright.CommandLine
