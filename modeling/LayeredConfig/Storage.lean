import LayeredConfig.Codec
import LayeredConfig.Run
/-!
# Storages

A storage holds named documents of one collection. It is given by its operations, which work on a
state that several storages may share. Absence is an answer, never a failure. A `View` is a storage
that also leads to the other collections of its store.
-/

namespace LayeredConfig

/-- The operations on a collection of named documents. -/
structure Storage (σ : Type) where
  /-- Whether there is a document of a name. -/
  contains : String → Run σ Bool
  /-- The document of a name. -/
  read : String → Run σ (Option Document)
  /-- The documents of some names. Names without a document are left out. -/
  readMany : List String → Run σ (Dict Document)
  /-- Writes a document. The answer tells whether it was written. -/
  write : String → Document → Run σ Bool
  /-- Deletes a document. The answer tells whether there was one. -/
  delete : String → Run σ Bool
  /-- Renames a document. The answer tells whether there was one. -/
  rename : String → String → Run σ Bool
  /-- The names that start with a text, in ascending order. -/
  list : String → Run σ (List String)
  /-- Deletes all documents whose names start with a text. -/
  deleteAll : String → Run σ Bool
  /-- The names of the other collections than the default one that hold documents. -/
  collectionNames : Run σ (List String)
  /-- The name of this collection. -/
  collectionName : String
  /-- The text of a document. -/
  encode : Document → Run σ String
  /-- The document of a text. -/
  decode : String → Run σ Document

/-- Storages of one type that lead to the other collections of their stores. -/
class View (σ : outParam Type) (V : Type) where
  /-- The storage of a view. -/
  storage : V → Storage σ
  /-- The view of another collection of the same store. -/
  collection : V → String → Run σ V

namespace Storage

variable {σ τ : Type}

/-- Reads documents one by one. -/
def readEach (read : String → Run σ (Option Document)) (names : List String) :
    Run σ (Dict Document) :=
  names.foldlM (fun found name => do
    match ← read name with
    | some d => pure (found.insert name d)
    | none => pure found) ∅

/-- A storage for which nothing can be changed. -/
def readOnly (s : Storage σ) : Storage σ :=
  { s with
    write := fun _ _ => .fail (.readOnly "write")
    delete := fun _ => .fail (.readOnly "delete")
    rename := fun _ _ => .fail (.readOnly "rename")
    deleteAll := fun _ => .fail (.readOnly "delete_all") }

/-- A storage whose operations work on another state. -/
def lift (run : {α : Type} → Run τ α → Run σ α) (s : Storage τ) : Storage σ where
  contains name := run (s.contains name)
  read name := run (s.read name)
  readMany names := run (s.readMany names)
  write name d := run (s.write name d)
  delete name := run (s.delete name)
  rename old new := run (s.rename old new)
  list start := run (s.list start)
  deleteAll start := run (s.deleteAll start)
  collectionNames := run s.collectionNames
  collectionName := s.collectionName
  encode d := run (s.encode d)
  decode text := run (s.decode text)

end Storage

end LayeredConfig
