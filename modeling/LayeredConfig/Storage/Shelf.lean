import LayeredConfig.Storage
/-!
# Documents in memory

A shelf holds the documents of all collections of a store. A collection whose last document is deleted
is not kept.
-/

namespace LayeredConfig

/-- The documents of each collection. -/
abbrev Shelf := Dict (Dict Document)

namespace Shelf

/-- The documents of a collection. -/
def documents (s : Shelf) (collection : String) : Dict Document := (s.get? collection).getD ∅

/-- Replaces the documents of a collection, which is not kept without any. -/
def put (s : Shelf) (collection : String) (ds : Dict Document) : Shelf :=
  if ds.isEmpty then s.erase collection else s.insert collection ds

/-- The other collections than the default one that hold documents. -/
def named (s : Shelf) : List String :=
  s.keys.filter fun c => c ≠ Name.defaultCollection && !(s.documents c).isEmpty

/-- A shelf with some documents in the default collection. -/
def ofDocuments (ds : Dict Document) : Shelf := Dict.insert ∅ Name.defaultCollection ds

/-- The storage of a collection of a shelf. -/
def storage (collection : String) : Storage Shelf where
  contains name := return ((← get).documents collection).contains name
  read name := return ((← get).documents collection).get? name
  readMany := Storage.readEach fun name => return ((← get).documents collection).get? name
  write name d := do
    modify fun s => s.insert collection ((s.documents collection).insert name d)
    return true
  delete name := do
    match (← get).get? collection with
    | none => return false
    | some ds =>
      modify fun s => s.put collection (ds.erase name)
      return ds.contains name
  rename old new := do
    match (← get).get? collection with
    | none => return false
    | some ds =>
      match ds.get? old with
      | none => return false
      | some d =>
        modify fun s => s.insert collection ((ds.erase old).insert new d)
        return true
  list start := return ((← get).documents collection).keys.filter (·.startsWith start)
  deleteAll start := do
    match (← get).get? collection with
    | none => return true
    | some ds =>
      modify fun s => s.put collection (ds.filterKeys (! ·.startsWith start))
      return true
  collectionNames := return (← get).named
  collectionName := collection
  encode d := .ofExcept d.encode
  decode text := .ofExcept (Document.decode text)

end Shelf

end LayeredConfig
