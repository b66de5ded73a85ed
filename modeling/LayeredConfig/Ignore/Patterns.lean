import LayeredConfig.Glob.Braces
import LayeredConfig.Glob.Match
import LayeredConfig.KeyPath
import LayeredConfig.Name
/-!
# Ignore patterns

A list of patterns says which documents are ignored, and which keys of other documents.
`system.*` ignores documents, `system.site:page.front` ignores one key of a document, and
`~system.site` exempts a document from all other patterns. Blank patterns do not count.
-/

namespace LayeredConfig.Ignore

/-- What one pattern says. -/
inductive Rule
  | exempt (name : String)
  | document (glob : Glob)
  | key (glob : Glob) (path : KeyPath)

/-- The glob of a part of a pattern. -/
def globOf (part pattern : String) : Except PatternFailure Glob :=
  match Glob.ofText? (Glob.escapeBraces part) with
  | .ok g => .ok g
  | .error f => .error (.glob pattern (Glob.escapeBraces part) f)

/-- The key path of a text, unless one of its keys is empty. -/
def keyPath? (text : String) : Option KeyPath :=
  match Name.parts '.' text with
  | [] => none
  | first :: rest => if (first :: rest).any (·.isEmpty) then none else some ⟨first, rest⟩

/-- The text before the first colon, and the one after it if there is a colon. -/
def splitKey : List Char → List Char × Option (List Char)
  | [] => ([], none)
  | ':' :: rest => ([], some rest)
  | c :: rest => (c :: (splitKey rest).1, (splitKey rest).2)

/-- What a pattern says. -/
def Rule.ofText? (pattern : String) : Except PatternFailure Rule :=
  match pattern.toList with
  | '~' :: name => .ok (.exempt (String.ofList name))
  | cs =>
    match splitKey cs with
    | (_, none) => (globOf pattern pattern).map .document
    | (glob, some keys) =>
      match keyPath? (String.ofList keys) with
      | none => .error (.emptyKey pattern)
      | some path => (globOf (String.ofList glob) pattern).map (.key · path)

/-- Patterns and what they say. -/
structure Patterns where
  rules : List (String × Rule)

namespace Patterns

/-- The patterns of some texts, in their order. -/
def ofTexts? (texts : List String) : Except PatternFailure Patterns :=
  let entries := (texts.map Text.trim).filter (! ·.isEmpty)
  (entries.mapM fun text => (Rule.ofText? text).map (text, ·)).map Patterns.mk

/-- The patterns as texts. -/
def texts (p : Patterns) : List String := p.rules.map (·.1)

/-- Whether a document is exempt. -/
def exempts (p : Patterns) (name : String) : Bool :=
  p.rules.any fun r =>
    match r.2 with
    | .exempt n => n == name
    | _ => false

/-- Whether a document is ignored. -/
def ignores (p : Patterns) (name : String) : Bool :=
  !p.exempts name && p.rules.any fun r =>
    match r.2 with
    | .document g => g.admitsPath name
    | _ => false

/-- The keys that are ignored in a document, each once, in the order of the patterns. -/
def keys (p : Patterns) (name : String) : List KeyPath :=
  if p.exempts name then []
  else (p.rules.filterMap fun r =>
    match r.2 with
    | .key g path => if g.admits name then some path else none
    | _ => none).eraseDups

/-- Whether a pattern is about keys. -/
def hasKeys (p : Patterns) : Bool :=
  p.rules.any fun r =>
    match r.2 with
    | .key .. => true
    | _ => false

end Patterns

end LayeredConfig.Ignore
