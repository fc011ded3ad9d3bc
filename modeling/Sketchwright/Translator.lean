import Sketchwright.Inference.Worklist
import Sketchwright.Program.Parser
import Sketchwright.Sketch.Emit

/-! From a source text to the text of a sketch. -/

namespace Sketchwright

/-- The program of a source text, before inference. -/
def Program.ofSource (source : String) : Except Error Program :=
  match Token.tokenize source with
  | .ok tokens => Program.ofTokens tokens source
  | .error error => .error (.lex error)

/-- An accepted configuration and the table that it leads to. -/
structure Translator where
  config : Config
  table : CallTable
  deriving DecidableEq, Repr

namespace Translator

def ofConfig (config : Config) : Except ConfigError Translator := do
  config.validate
  return ⟨config, ← CallTable.ofConfig config⟩

def standard : Translator := ⟨default, .builtin⟩

def style (t : Translator) : Sketch.Style := ⟨t.table, t.config.floatType⟩

def generate (t : Translator) (program : Program) : Except Error String :=
  Sketch.generate t.style t.config.indentWidth program

/-- The sketch of a program, and what is reported on the way. -/
def translateProgram (t : Translator) (source : String) (program : Program) :
    Except Error String × List Event :=
  match Inference.infer t.table program with
  | (.error error, events) => (.error error, events)
  | (.ok program, events) =>
    match t.generate program with
    | .error error => (.error error, events)
    | .ok output =>
      (.ok output, events ++ [.generated output.utf8ByteSize,
        .translated (Text.lines source).length (Text.lines output).length])

def translateTokens (t : Translator) (source : String) (tokens : List Token) :
    Except Error String × List Event :=
  match Program.ofTokens tokens source with
  | .error error => (.error error, [])
  | .ok program =>
    let (result, events) := t.translateProgram source program
    (result, .parsed program.header.length program.statements.length :: events)

/-- The sketch of a source text, and what is reported on the way. -/
def report (t : Translator) (source : String) : Except Error String × List Event :=
  let (result, lexer) := (Token.Lexer.start source.toList).run
  let warnings := lexer.mixed.map Event.mixedIndentation
  match result with
  | .error error => (.error (.lex error), warnings)
  | .ok tokens =>
    let (result, events) := t.translateTokens source tokens
    (result, warnings ++ .tokenized tokens.length lexer.position.line :: events)

/-- The sketch of a source text. -/
def translate (t : Translator) (source : String) : Except Error String := (t.report source).1

end Translator

end Sketchwright
