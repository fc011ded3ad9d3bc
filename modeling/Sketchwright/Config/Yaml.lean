import Sketchwright.Config.Document
import Sketchwright.Yaml.Token.Lexer
import Sketchwright.Yaml.Tree

/-! Configurations written as YAML. -/

namespace Sketchwright.Config

/-- The configuration that a text describes. -/
def ofYaml? (text : String) : Option Config := do
  ofDocument? (← Yaml.document? (← Yaml.Token.ofText? text))

end Sketchwright.Config
