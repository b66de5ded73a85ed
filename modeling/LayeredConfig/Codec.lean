import LayeredConfig.Failure
import LayeredConfig.Yaml.Decode
import LayeredConfig.Yaml.Encode
/-!
# Documents as texts

A document is written as YAML and read back. A text without content, and null, stand for the empty
document.
-/

namespace LayeredConfig.Document

/-- The text of a document. -/
def encode (d : Document) : Except Failure String :=
  match Yaml.encode (Yaml.valueOf d) with
  | .ok text => .ok text
  | .error fault => .error (.text (.encode fault))

/-- The document of a text. -/
def decode (text : String) : Except Failure Document :=
  if (Text.trim text).isEmpty then .ok ∅
  else match Yaml.document text with
    | .ok d => .ok d
    | .error fault => .error (.text (.decode fault none))

end LayeredConfig.Document
