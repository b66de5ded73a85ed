import LayeredConfig.Ignore.Patterns
import LayeredConfig.Pipeline
/-!
# The ignore filter

Documents that the patterns ignore are taken from another storage, the active one, and cannot be
deleted or renamed. Of other documents, the ignored keys are taken from the active document
(`Ignore.splice`).
-/

namespace LayeredConfig.Ignore

/-- The id of ignore filters. -/
def filterId : String := "config_ignore"

/-- Takes one key from the active document: its value is set, or taken out where it has none. -/
def spliceKey (active : Option Document) (d : Document) (path : KeyPath) : Option Document :=
  match active.bind (·.at? path) with
  | some v => d.with? path v
  | none => some (d.without path)

/-- Takes some keys from the active document, one after the other. There is no answer where a tagged
mapping is in the way. -/
def splice (active : Option Document) (paths : List KeyPath) (d : Document) : Option Document :=
  paths.foldlM (spliceKey active) d

variable {σ : Type}

/-- What an ignore filter works with: its patterns, whether it is turned off, and the active
storage. -/
structure Context (σ : Type) where
  patterns : Patterns
  deactivated : Bool
  active : Storage σ

namespace Context

variable (x : Context σ)

/-- Whether a document is ignored. -/
def ignores (name : String) : Bool := !x.deactivated && x.patterns.ignores name

/-- The ignored keys of a document. -/
def keys (name : String) : List KeyPath := if x.deactivated then [] else x.patterns.keys name

/-- A document with its ignored keys taken from the active one. -/
def spliced (name : String) (d : Document) : Run σ Document :=
  match x.keys name with
  | [] => pure d
  | paths => do
    match splice (← x.active.read name) paths d with
    | some d => pure d
    | none => .crash

/-- The active document if the document is ignored, else the given one with its ignored keys taken
from the active one. -/
def replaced (name : String) (d : Option Document) : Run σ (Option Document) :=
  if x.ignores name then x.active.read name
  else match d with
    | none => pure none
    | some d => some <$> x.spliced name d

/-- Some documents, with those that are ignored and asked for taken from the active storage, and the
ignored keys of the others. -/
def replacedMany (names : List String) (ds : Dict Document) : Run σ (Dict Document) := do
  let spliced ← ds.entries.mapM fun e => do
    if x.ignores e.1 then pure e else return (e.1, ← x.spliced e.1 e.2)
  let ds : Dict Document := .ofList spliced
  -- The active storage is asked once for all ignored names, and not at all if there are none.
  match names.filter x.ignores with
  | [] => pure ds
  | matched => return ds.override (← x.active.readMany matched)

/-- Whether no ignored document is among those whose names start with a text, in the wrapped storage
and in the active one. -/
def sparesAll (source : Option (Storage σ)) (start : String) : Run σ Bool := do
  if let some s := source then
    if (← s.list start).any x.ignores then return false
  return !(← x.active.list start).any x.ignores

/-- The hooks of an ignore filter. The wrapped storage is known once the filter is bound to it. -/
def hooks (source : Option (Storage σ)) : Hooks σ where
  contains name b := if !b && x.ignores name then x.active.contains name else pure b
  read := x.replaced
  readMany := x.replacedMany
  write := x.replaced
  emptyDeletes name := pure (x.ignores name)
  delete name b := pure (b && !x.ignores name)
  rename old new b := pure (b && !x.ignores old && !x.ignores new)
  list start names := do
    return Name.sortedUnique (names ++ (← x.active.list start).filter x.ignores)
  deleteAll start b := if b then x.sparesAll source start else pure false
  collectionNames names := do
    return Name.sortedUnique (names ++ (← x.active.collectionNames))

end Context

end LayeredConfig.Ignore
