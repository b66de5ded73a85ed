/-!
# Tokens

The tokens of a YAML text. The starts and ends of block collections, which a text shows by
indentation alone, are tokens like the others, and so is the key that a colon turns a node into.
-/

namespace LayeredConfig.Yaml

/-- How a scalar is written. -/
inductive Style
  | plain
  | singleQuoted
  | doubleQuoted
  | literal
  | folded
  deriving DecidableEq, Inhabited

/-- A token of a YAML text. -/
inductive Token
  | version (major minor : Nat)
  | tagDirective (handle : String) (start : List UInt8)
  | documentStart
  | documentEnd
  | blockSequenceStart
  | blockMappingStart
  | blockEnd
  | flowSequenceStart
  | flowSequenceEnd
  | flowMappingStart
  | flowMappingEnd
  | blockEntry
  | flowEntry
  | key
  | value
  | alias (name : String)
  | anchor (name : String)
  | tag (handle : String) (suffix : List UInt8)
  | scalar (style : Style) (text : String)
  deriving DecidableEq, Inhabited

end LayeredConfig.Yaml
