import LayeredConfig.Ignore.Settings
import LayeredConfig.Overlay
import LayeredConfig.Store
/-!
# Registries

A registry makes filters from declarations: it has a factory for each id that it knows. Of an
overlay it makes the chain of the enabled filters, in their order, and wraps a store in it.
-/

namespace LayeredConfig

/-- Makes a filter from its declaration, for an active store. -/
abbrev Factory := Declaration → Store → Except Failure Filter

/-- Factories under the ids of their filters. -/
structure Registry where
  factories : Dict Factory

namespace Registry

/-- The registry without factories. -/
def empty : Registry := ⟨∅⟩

/-- Enters a factory, instead of an earlier one under the id. -/
def register (r : Registry) (id : String) (f : Factory) : Registry := ⟨r.factories.insert id f⟩

/-- Makes an ignore filter. -/
def ignoreFactory : Factory := fun d active =>
  match Ignore.Settings.ofDocument d.settings with
  | .error f => .error (.overlay f)
  | .ok settings =>
    match Ignore.Patterns.ofTexts? settings.patterns with
    | .error f => .error (.invalidPattern f)
    | .ok patterns => .ok (.ignore patterns settings.deactivated active)

/-- The registry that knows ignore filters. -/
def standard : Registry := empty.register Ignore.filterId ignoreFactory

/-- The ids that are known. -/
def ids (r : Registry) : List String := r.factories.keys

/-- Makes one filter. -/
def filter (r : Registry) (active : Store) (d : Declaration) : Except Failure Filter :=
  match r.factories.get? d.id with
  | none => .error (.unknownFilter d.id)
  | some make => make d active

/-- Makes the enabled filters of an overlay. -/
def chain (r : Registry) (o : Overlay) (active : Store) : Except Failure (List Filter) :=
  o.enabled.mapM (r.filter active)

/-- A store wrapped in the enabled filters of an overlay. -/
def wrap (r : Registry) (mark : Option Nat) (base : Store) (o : Overlay) (active : Store) :
    Except Failure Store :=
  (r.chain o active).map (.layered mark base)

end Registry

end LayeredConfig
