import LayeredConfig.Filter.Stock
import LayeredConfig.Ignore.Filter
import LayeredConfig.Storage.Directory
import LayeredConfig.Storage.Journal
import LayeredConfig.Storage.Shelf
import LayeredConfig.Table
/-!
# Stores

A store is put together from shelves in memory and from directories, with views for reading only,
journals and filters around them. `Store` describes how, and `Store.storage` says what the
operations do to the world: the shelves, the file tree and the journals that stores share.
`Store.collection` leads to another collection of the same store.
-/

namespace LayeredConfig

/-- What stores share: shelves and journals under numbers, and a file tree. -/
structure World where
  shelves : Table Shelf
  files : FileTree
  journals : Table Journal

namespace World

/-- The world without documents. -/
def empty : World := ⟨.empty, .empty, .empty⟩

instance : Inhabited World := ⟨empty⟩

/-- Works on a shelf. -/
def onShelf {α : Type} (i : Nat) : Run Shelf α → Run World α :=
  Run.within (·.shelves.get i) fun s w => { w with shelves := w.shelves.replace i s }

/-- Works on the file tree. -/
def onFiles {α : Type} : Run FileTree α → Run World α :=
  Run.within (·.files) fun t w => { w with files := t }

/-- Works on a journal. -/
def onJournal {α : Type} (i : Nat) : Run Journal α → Run World α :=
  Run.within (·.journals.get i) fun j w => { w with journals := w.journals.replace i j }

end World

mutual

/-- A store, seen from one of its collections. -/
inductive Store
  /-- A shelf in memory. -/
  | shelf (number : Nat) (collection : String)
  /-- A directory of files. -/
  | directory (root collection : String)
  /-- A store for reading only. -/
  | readOnly (inner : Store)
  /-- A store whose calls are entered in a journal. -/
  | journaled (number : Nat) (inner : Store)
  /-- A store wrapped in filters. A mark tells it from other stores like it. -/
  | layered (mark : Option Nat) (base : Store) (filters : List Filter)

/-- A filter. -/
inductive Filter
  /-- Takes what is ignored from an active store. -/
  | ignore (patterns : Ignore.Patterns) (deactivated : Bool) (active : Store)
  | stock (f : Stock)

end

instance : Inhabited Store := ⟨.shelf 0 ""⟩

/-! ## Operations -/

mutual

/-- The operations of a store. The filters around a store are bound to it for reading only. -/
def Store.storage : Store → Storage World
  | .shelf i collection => (Shelf.storage collection).lift (World.onShelf i)
  | .directory root collection => (Directory.storage root collection).lift World.onFiles
  | .readOnly s => s.storage.readOnly
  | .journaled i s => Journal.storage (World.onJournal i) s.storage
  | .layered _ base filters =>
    Pipeline.storage base.storage (Filter.chain (some base.storage.readOnly) filters)

/-- The hooks of a filter that may be bound to a storage. -/
def Filter.hooks (source : Option (Storage World)) : Filter → Hooks World
  | .ignore patterns deactivated active =>
    Ignore.Context.hooks ⟨patterns, deactivated, active.storage⟩ source
  | .stock f => f.hooks

/-- The hooks of some filters. -/
def Filter.chain (source : Option (Storage World)) : List Filter → List (Hooks World)
  | [] => []
  | f :: rest => f.hooks source :: Filter.chain source rest

end

/-! ## Collections -/

mutual

/-- Another collection of a store. -/
def Store.collection (collection : String) : Store → Run World Store
  | .shelf i _ => pure (.shelf i collection)
  | .directory root _ =>
    if Name.isValidCollection collection then pure (.directory root collection)
    else .fail (.invalidName collection)
  | .readOnly s => Store.readOnly <$> s.collection collection
  | .journaled i s => do
    World.onJournal i (Journal.enter ("create_collection:" ++ collection))
    Store.journaled i <$> s.collection collection
  | .layered _ base filters => do
    -- A mark belongs to one store, not to the collections that are derived from it.
    let (base, filters) ← Pipeline.collection (Filter.derivations collection filters)
      (base.collection collection)
    pure (.layered none base filters)

/-- A filter for another collection. -/
def Filter.derive (collection : String) : Filter → Run World (Option Filter)
  | .ignore patterns deactivated active =>
    (some <| .ignore patterns deactivated ·) <$> active.collection collection
  | .stock f => (·.map .stock) <$> f.derive collection

/-- Some filters for another collection. -/
def Filter.derivations (collection : String) : List Filter → List (Run World (Option Filter))
  | [] => []
  | f :: rest => f.derive collection :: Filter.derivations collection rest

end

instance : View World Store where
  storage := Store.storage
  collection s c := s.collection c

/-! ## Parts of a store -/

namespace Filter

/-- The name by which a filter is known. -/
def id : Filter → String
  | .ignore .. => Ignore.filterId
  | .stock f => f.id

end Filter

namespace Store

/-- The store inside a store that is wrapped in filters. -/
def base? : Store → Option Store
  | .layered _ base _ => some base
  | _ => none

/-- The filters around a store. -/
def filters? : Store → Option (List Filter)
  | .layered _ _ filters => some filters
  | _ => none

/-- What the filters around a store are bound to. -/
def source? (s : Store) : Option Store := s.base?.map .readOnly

end Store

mutual

/-- The part of a store that has a mark. -/
def Store.marked? (mark : Nat) : Store → Option Store
  | .shelf .. => none
  | .directory .. => none
  | .readOnly s => s.marked? mark
  | .journaled _ s => s.marked? mark
  | .layered m base filters =>
    if m = some mark then some (.layered m base filters)
    else (base.marked? mark).or (Filter.marked? mark filters)

/-- The part of a store that a filter takes from, if it has a mark. -/
def Filter.markedActive? (mark : Nat) : Filter → Option Store
  | .ignore _ _ active => active.marked? mark
  | .stock _ => none

/-- The part of a store that one of some filters takes from, if it has a mark. -/
def Filter.marked? (mark : Nat) : List Filter → Option Store
  | [] => none
  | f :: rest => (f.markedActive? mark).or (Filter.marked? mark rest)

end

end LayeredConfig
