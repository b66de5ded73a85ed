import LayeredConfig.FileTree
import LayeredConfig.Yaml.Fault
/-!
# Failures

What can go wrong with configuration, each kind with its causes, its wording and its exit code. That
a document is absent, or that a filter forbids a change, is an answer and not a failure.
-/

namespace LayeredConfig

/-- What a store could not do. -/
inductive IoFailure
  | read (path : String) (cause : OsFault)
  | readDirectory (path : String) (cause : OsFault)
  | delete (path : String) (cause : OsFault)
  | rename (old new : String) (cause : OsFault)
  | createDirectory (path : String) (cause : OsFault)
  | createTemporary (path : String) (cause : OsFault)
  | replace (path : String) (cause : OsFault)
  | badPath (path : String)
  | told (words : String)
  deriving DecidableEq

/-- Which document could not be read or written as text. -/
inductive TextFailure
  | decode (cause : Yaml.Fault) (path : Option String)
  | encode (cause : Yaml.Fault)
  | json
  | told (words : String)
  deriving DecidableEq

/-- Why a pattern with brackets and stars has no meaning. -/
inductive GlobFault
  | unclosedClass
  | invalidRange (first last : Char)
  | danglingEscape
  | unopenedAlternates
  | unclosedAlternates
  deriving DecidableEq

/-- Why an ignore pattern is refused. -/
inductive PatternFailure
  | emptyKey (pattern : String)
  | glob (pattern escaped : String) (cause : GlobFault)
  | told (words : String)
  deriving DecidableEq

/-- Why an overlay is refused. -/
inductive OverlayFailure
  | unreadable (path : String) (cause : OsFault)
  | malformed (cause : Yaml.Fault)
  | unwritable (cause : Yaml.Fault)
  | blankId
  | duplicateId (id : String)
  | settings (field : String)
  | told (words : String)
  deriving DecidableEq

/-- A failure. -/
inductive Failure
  | io (cause : IoFailure)
  | text (cause : TextFailure)
  | readOnly (operation : String)
  | invalidName (name : String)
  | invalidPattern (cause : PatternFailure)
  | overlay (cause : OverlayFailure)
  | unknownFilter (id : String)
  | user (words : String)
  deriving DecidableEq

/-! ## Wording -/

/-- A text in single quotes. -/
def inQuotes (s : String) : String := "'" ++ s ++ "'"

/-- The failure in words. -/
def IoFailure.message : IoFailure → String
  | .read path cause => "failed to read " ++ inQuotes path ++ ": " ++ cause.message
  | .readDirectory path cause =>
    "failed to read directory " ++ inQuotes path ++ ": " ++ cause.message
  | .delete path cause => "failed to delete " ++ inQuotes path ++ ": " ++ cause.message
  | .rename old new cause =>
    "failed to rename " ++ inQuotes old ++ " to " ++ inQuotes new ++ ": " ++ cause.message
  | .createDirectory path cause =>
    "failed to create directory " ++ inQuotes path ++ ": " ++ cause.message
  | .createTemporary path cause =>
    "failed to create temporary file " ++ inQuotes path ++ ": " ++ cause.message
  | .replace path cause => "failed to replace " ++ inQuotes path ++ ": " ++ cause.message
  | .badPath path => "invalid file path " ++ inQuotes path
  | .told words => words

/-- The failure in words. -/
def TextFailure.message : TextFailure → String
  | .decode cause none => "failed to decode document: " ++ cause.message
  | .decode cause (some path) =>
    "failed to decode document: " ++ cause.message ++ " (" ++ inQuotes path ++ ")"
  | .encode cause => "failed to encode document: " ++ cause.message
  | .json => "failed to render JSON: a key must be a text"
  | .told words => words

/-- The cause in words. -/
def GlobFault.message : GlobFault → String
  | .unclosedClass => "unclosed character class; missing ']'"
  | .invalidRange first last =>
    "invalid range; " ++ inQuotes (String.singleton first) ++ " > " ++
      inQuotes (String.singleton last)
  | .danglingEscape => "dangling '\\'"
  | .unopenedAlternates =>
    "unopened alternate group; missing '\x7b' (maybe escape '\x7d' with '[\x7d]'?)"
  | .unclosedAlternates =>
    "unclosed alternate group; missing '\x7d' (maybe escape '\x7b' with '[\x7b]'?)"

/-- The failure in words. -/
def PatternFailure.message : PatternFailure → String
  | .emptyKey pattern => inQuotes pattern ++ " has an empty key path"
  | .glob pattern escaped cause =>
    inQuotes pattern ++ " - error parsing glob " ++ inQuotes escaped ++ ": " ++ cause.message
  | .told words => words

/-- The failure in words. -/
def OverlayFailure.message : OverlayFailure → String
  | .unreadable path cause =>
    "failed to read overlay config " ++ inQuotes path ++ ": " ++ cause.message
  | .malformed cause => "failed to parse overlay config YAML: " ++ cause.message
  | .unwritable cause => "failed to serialize overlay config: " ++ cause.message
  | .blankId => "config validation failed: filter id must not be empty"
  | .duplicateId id =>
    "config validation failed: filter " ++ inQuotes id ++ " is declared more than once"
  | .settings field =>
    "invalid config_ignore settings: " ++ inQuotes field ++ " is of the wrong kind"
  | .told words => words

/-- The failure in words. -/
def Failure.message : Failure → String
  | .io cause => "storage I/O failed: " ++ cause.message
  | .text cause => "serialization failed: " ++ cause.message
  | .readOnly operation => "storage is read-only: " ++ operation ++ " is not permitted"
  | .invalidName name => "invalid configuration name " ++ inQuotes name
  | .invalidPattern cause => "invalid pattern: " ++ cause.message
  | .overlay cause => cause.message
  | .unknownFilter id => "unknown filter " ++ inQuotes id
  | .user words => words

/-- The exit code: 1 for the user's mistakes, 2 for failures of a store, 3 for those of an overlay.
-/
def Failure.exitCode : Failure → Nat
  | .io _ | .text _ | .readOnly _ => 2
  | .invalidPattern _ | .overlay _ | .unknownFilter _ => 3
  | .invalidName _ | .user _ => 1

end LayeredConfig
