import LayeredConfig.Failure
import LayeredConfig.Value
/-!
# Settings of an ignore filter

The settings that an overlay gives for an ignore filter: its patterns, and whether it does nothing.
Tags on the settings do not count, and settings of other names are skipped.
-/

namespace LayeredConfig.Ignore

/-- Settings of an ignore filter. -/
structure Settings where
  patterns : List String
  deactivated : Bool

namespace Settings

/-- The name of the setting with the patterns. -/
def patternsField : String := "ignored_config_entities"

/-- The name of the setting that turns the filter off. -/
def deactivatedField : String := "deactivate"

/-- The text that a value is. -/
def text? (v : Value) : Option String :=
  match v.untagged with
  | .string s => some s
  | _ => none

/-- The texts that a value lists. Null lists none. -/
def texts? (v : Value) : Option (List String) :=
  match v.untagged with
  | .sequence vs => vs.mapM text?
  | .null => some []
  | _ => none

/-- The truth value that a value is. -/
def bool? (v : Value) : Option Bool :=
  match v.untagged with
  | .bool b => some b
  | _ => none

/-- The setting of a name, as it is read, or what holds where it is missing. -/
def setting {α : Type} (d : Document) (name : String) (missing : α) (read : Value → Option α) :
    Except OverlayFailure α :=
  match d.get? name with
  | none => .ok missing
  | some v =>
    match read v with
    | some a => .ok a
    | none => .error (.settings name)

/-- The settings that a document holds. -/
def ofDocument (d : Document) : Except OverlayFailure Settings := do
  let patterns ← setting d patternsField [] texts?
  let deactivated ← setting d deactivatedField false bool?
  .ok ⟨patterns, deactivated⟩

end Settings

end LayeredConfig.Ignore
