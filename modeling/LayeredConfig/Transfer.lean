import LayeredConfig.Storage
/-!
# Transfer

A transfer makes a store hold what another one holds, collection by collection: documents that
differ are written, and documents that the source does not list are deleted. The report counts what
was done; changes that the target refuses do not count.
-/

namespace LayeredConfig

/-- How many documents a transfer created, updated, deleted and left as they were. -/
structure Report where
  created : Nat
  updated : Nat
  deleted : Nat
  unchanged : Nat
  deriving DecidableEq

namespace Report

/-- The report of a transfer that did nothing. -/
def zero : Report := ⟨0, 0, 0, 0⟩

/-- Whether anything was changed. -/
def hasChanges (r : Report) : Bool := 0 < r.created + r.updated + r.deleted

/-- The report in words. -/
def text (r : Report) : String :=
  toString r.created ++ " created, " ++ toString r.updated ++ " updated, " ++
    toString r.deleted ++ " deleted, " ++ toString r.unchanged ++ " unchanged"

end Report

namespace Transfer

variable {σ V W : Type}

/-- Writes one document of the source where the target holds another one or none. -/
def copy (target : Storage σ) (existing : Dict Document) (r : Report) (e : String × Document) :
    Run σ Report := do
  match existing.get? e.1 with
  | some current =>
    if current.same e.2 then return { r with unchanged := r.unchanged + 1 }
    else if ← target.write e.1 e.2 then return { r with updated := r.updated + 1 }
    else return r
  | none =>
    if ← target.write e.1 e.2 then return { r with created := r.created + 1 } else return r

/-- Deletes one document of the target unless the source lists it. -/
def prune (target : Storage σ) (listed : List String) (r : Report) (name : String) :
    Run σ Report := do
  if listed.contains name then return r
  else if ← target.delete name then return { r with deleted := r.deleted + 1 }
  else return r

/-- Transfers one collection. -/
def reconcile (source target : Storage σ) (r : Report) : Run σ Report := do
  let listed ← source.list ""
  let incoming ← source.readMany listed
  let existing ← target.readMany (← target.list "")
  -- Nothing is deleted before all that differs has been written.
  let r ← incoming.entries.foldlM (copy target existing) r
  existing.keys.foldlM (prune target listed) r

/-- Transfers the collection of a name. -/
def reconcileCollection [View σ V] [View σ W] (source : V) (target : W) (r : Report)
    (collection : String) : Run σ Report := do
  let source ← View.collection source collection
  let target ← View.collection target collection
  reconcile (View.storage source) (View.storage target) r

/-- Transfers the collection of two views, and the other collections of their stores. -/
def run [View σ V] [View σ W] (source : V) (target : W) : Run σ Report := do
  let r ← reconcile (View.storage source) (View.storage target) .zero
  let ours ← (View.storage source).collectionNames
  let theirs ← (View.storage target).collectionNames
  -- Collections that only one of the two has are transferred as well.
  let named := (Name.sortedUnique (ours ++ theirs)).filter (· ≠ Name.defaultCollection)
  named.foldlM (reconcileCollection source target) r

end Transfer

end LayeredConfig
