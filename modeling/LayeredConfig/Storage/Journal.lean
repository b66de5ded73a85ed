import LayeredConfig.Storage
/-!
# Storages that keep a journal

A journal lists the calls that a storage gets. It also tells for which names changes are refused,
and which calls fail.
-/

namespace LayeredConfig

/-- What is known of the calls to a storage: those it got, the last one first, the names for which
it refuses to write and to delete, and the calls that fail. -/
structure Journal where
  calls : List String
  refused : List String
  failing : List String

instance : Inhabited Journal := ⟨[], [], []⟩

namespace Journal

/-- Enters a call. It stops here if it is one that fails. -/
def enter (call : String) : Run Journal Unit := do
  modify fun j => { j with calls := call :: j.calls }
  if (← get).failing.contains call then .fail (.io (.told (call ++ " failed")))

/-- Whether changes under a name are refused. -/
def refuses (name : String) : Run Journal Bool := return (← get).refused.contains name

/-- A storage that enters each call before it passes it on. -/
def storage {σ : Type} (journal : {α : Type} → Run Journal α → Run σ α) (s : Storage σ) :
    Storage σ where
  contains name := do
    journal (enter ("exists:" ++ name))
    s.contains name
  read name := do
    journal (enter ("read:" ++ name))
    s.read name
  readMany names := do
    journal (enter ("read_multiple:" ++ ",".intercalate names))
    s.readMany names
  write name d := do
    journal (enter ("write:" ++ name))
    if ← journal (refuses name) then return false
    s.write name d
  delete name := do
    journal (enter ("delete:" ++ name))
    if ← journal (refuses name) then return false
    s.delete name
  rename old new := do
    journal (enter ("rename:" ++ old ++ ":" ++ new))
    s.rename old new
  list start := do
    journal (enter ("list_all:" ++ start))
    s.list start
  deleteAll start := do
    journal (enter ("delete_all:" ++ start))
    s.deleteAll start
  collectionNames := do
    journal (enter "get_all_collection_names")
    s.collectionNames
  collectionName := s.collectionName
  encode d := .ofExcept d.encode
  decode text := .ofExcept (Document.decode text)

end Journal

end LayeredConfig
