/-!
# What is wrong with a YAML text

The causes for which a text is not read, and for which a value is not written.
-/

namespace LayeredConfig.Yaml

/-- A cause for which a YAML text is not read or a value is not written. -/
inductive Fault
  | forbiddenCharacter
  | tabInIndentation
  | missingColon
  | misplacedEntry
  | misplacedKey
  | misplacedValue
  | strayCharacter
  | malformedDirective
  | malformedTag
  | malformedAnchor
  | malformedBlockHeader
  | malformedEscape
  | unclosedQuote
  | unexpectedColon
  | unexpectedToken
  | unknownTagHandle
  | unknownAnchor
  | manyDocuments
  | tooDeep
  | tooManyAliases
  | duplicateKey
  | wideInteger
  | wrongKind
  | missingField (name : String)
  | nestedTag
  | unwritableKey
  deriving DecidableEq

/-- The cause in words. -/
def Fault.message : Fault → String
  | .forbiddenCharacter => "control characters are not allowed"
  | .tabInIndentation => "a tab stands where indentation is expected"
  | .missingColon => "a colon is expected after a key"
  | .misplacedEntry => "a sequence entry is not allowed here"
  | .misplacedKey => "a key is not allowed here"
  | .misplacedValue => "a value is not allowed here"
  | .strayCharacter => "a character cannot start a token"
  | .malformedDirective => "a directive is malformed"
  | .malformedTag => "a tag is malformed"
  | .malformedAnchor => "an anchor or alias has no proper name"
  | .malformedBlockHeader => "the first line of a block scalar is malformed"
  | .malformedEscape => "an escape sequence is malformed"
  | .unclosedQuote => "a quoted scalar is not closed"
  | .unexpectedColon => "a colon is not expected here"
  | .unexpectedToken => "the structure of the text is malformed"
  | .unknownTagHandle => "a tag has an unknown handle"
  | .unknownAnchor => "an alias has an unknown name"
  | .manyDocuments => "there is more than one document"
  | .tooDeep => "collections are nested too deep"
  | .tooManyAliases => "aliases are repeated too often"
  | .duplicateKey => "a mapping has a key twice"
  | .wideInteger => "an integer has more than 64 bits"
  | .wrongKind => "a node is of the wrong kind"
  | .missingField name => "the field '" ++ name ++ "' is missing"
  | .nestedTag => "a tag stands directly under a tag"
  | .unwritableKey => "a key cannot be written"

end LayeredConfig.Yaml
