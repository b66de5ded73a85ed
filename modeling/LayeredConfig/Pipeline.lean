import LayeredConfig.Storage
/-!
# Pipelines

A filter has a hook for each operation of a storage. Each hook is given what the operation would
answer, or what it would write, and says what to answer or write instead. A pipeline wraps a storage
in a chain of filters: the hooks are called in the order of the chain, each with what the one before
it said.
-/

namespace LayeredConfig

/-- The hooks of a filter. A hook that is not set passes on what it is given. -/
structure Hooks (σ : Type) where
  contains : String → Bool → Run σ Bool := fun _ b => pure b
  read : String → Option Document → Run σ (Option Document) := fun _ d => pure d
  readMany : List String → Dict Document → Run σ (Dict Document) := fun _ ds => pure ds
  /-- What to write; nothing and the empty document ask for no document. -/
  write : String → Option Document → Run σ (Option Document) := fun _ d => pure d
  /-- Whether to delete a document for which there is nothing to write. -/
  emptyDeletes : String → Run σ Bool := fun _ => pure false
  delete : String → Bool → Run σ Bool := fun _ b => pure b
  rename : String → String → Bool → Run σ Bool := fun _ _ b => pure b
  list : String → List String → Run σ (List String) := fun _ names => pure names
  /-- Whether to delete all documents at once, and not one by one. -/
  deleteAll : String → Bool → Run σ Bool := fun _ b => pure b
  collectionNames : List String → Run σ (List String) := pure
  collectionName : String → String := id

namespace Pipeline

variable {σ : Type} (base : Storage σ) (chain : List (Hooks σ))

/-- Whether the chain permits that a document is deleted. -/
def permitsDelete (name : String) : Run σ Bool := chain.foldlM (fun b h => h.delete name b) true

/-- Whether there is a document of a name. -/
def contains (name : String) : Run σ Bool := do
  chain.foldlM (fun b h => h.contains name b) (← base.contains name)

/-- The document of a name. -/
def read (name : String) : Run σ (Option Document) := do
  chain.foldlM (fun d h => h.read name d) (← base.read name)

/-- The documents of some names. -/
def readMany (names : List String) : Run σ (Dict Document) := do
  chain.foldlM (fun ds h => h.readMany names ds) (← base.readMany names)

/-- Writes what the chain makes of a document. If it makes nothing of it, a document that is there
is deleted if a filter says so. -/
def write (name : String) (d : Document) : Run σ Bool := do
  let payload ← chain.foldlM (fun p h => h.write name p) (some d)
  match payload.filter (! ·.isEmpty) with
  | some p => base.write name p
  | none =>
    -- The filters are asked only about a document that is there.
    if ← base.contains name then
      if ← chain.anyM (·.emptyDeletes name) then base.delete name else pure true
    else pure true

/-- Deletes a document if the chain permits it. -/
def delete (name : String) : Run σ Bool := do
  if ← permitsDelete chain name then base.delete name else pure false

/-- Renames a document if the chain permits it. -/
def rename (old new : String) : Run σ Bool := do
  if ← chain.foldlM (fun b h => h.rename old new b) true then base.rename old new else pure false

/-- The names that start with a text. -/
def list (start : String) : Run σ (List String) := do
  return Name.sortedUnique (← chain.foldlM (fun names h => h.list start names) (← base.list start))

/-- Deletes the documents whose names start with a text: all at once if the chain permits it, and
else those that the chain permits one by one. -/
def deleteAll (start : String) : Run σ Bool := do
  if ← chain.foldlM (fun b h => h.deleteAll start b) true then base.deleteAll start
  else
    -- The names are those of the base: filters that list further names have no say here.
    (← base.list start).forM fun name => do discard (delete base chain name)
    pure true

/-- The names of the other collections. -/
def collectionNames : Run σ (List String) := do
  return Name.sortedUnique
    (← chain.foldlM (fun names h => h.collectionNames names) (← base.collectionNames))

/-- The name of this collection. -/
def collectionName : String := chain.foldl (fun name h => h.collectionName name) base.collectionName

/-- A storage wrapped in a chain of filters. -/
def storage : Storage σ where
  contains := contains base chain
  read := read base chain
  readMany := readMany base chain
  write := write base chain
  delete := delete base chain
  rename := rename base chain
  list := list base chain
  deleteAll := deleteAll base chain
  collectionNames := collectionNames base chain
  collectionName := collectionName base chain
  encode := base.encode
  decode := base.decode

/-- Derives the filters for a collection one after the other. A filter may stay out of it. -/
def derive {F : Type} : List (Run σ (Option F)) → Run σ (List F)
  | [] => pure []
  | x :: rest => do
    let f ← x
    let fs ← derive rest
    pure (f.toList ++ fs)

/-- A collection of the wrapped storage, with the filters derived for it. The filters are derived
first. -/
def collection {F V : Type} (filters : List (Run σ (Option F))) (base : Run σ V) :
    Run σ (V × List F) := do
  let fs ← derive filters
  let v ← base
  pure (v, fs)

end Pipeline

end LayeredConfig
