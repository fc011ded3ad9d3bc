import Sketchwright.Document
import Sketchwright.Yaml.Tag

/-! The tokens that a YAML text is made of. Those of block collections stand for indentation. -/

namespace Sketchwright.Yaml

inductive Token where
  | directive (d : Directive)
  | documentStart
  | documentEnd
  | blockSequence
  | blockMapping
  | blockEnd
  | flowSequence
  | flowSequenceEnd
  | flowMapping
  | flowMappingEnd
  | item
  | comma
  | key
  | value
  | alias (name : String)
  | anchor (name : String)
  | tag (tag : Tag)
  | scalar (style : ScalarStyle) (text : String)
  deriving DecidableEq, Repr

end Sketchwright.Yaml
