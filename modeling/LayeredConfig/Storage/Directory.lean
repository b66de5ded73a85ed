import LayeredConfig.FileTree.Atomic
import LayeredConfig.Storage
/-!
# Documents in files

Each document of a directory is a file with the extension `.yml`. The default collection is the
directory itself, and the collection `a.b` its subdirectory `a/b`. Files and directories whose names
start with a dot do not count.
-/

namespace LayeredConfig.Directory

/-- The extension of documents. -/
def extension : String := ".yml"

/-- The directory of a collection. -/
def collectionPath (root collection : String) : String :=
  (Name.segments collection).foldl Path.join root

/-- The file of a document. -/
def filePath (root collection name : String) : Except Failure String :=
  if Name.isValid name then .ok (Path.join (collectionPath root collection) (name ++ extension))
  else .error (.invalidName name)

/-- Whether the name of a file or a directory counts: it is accepted, and not hidden. -/
def isListed (name : String) : Bool := !name.startsWith "." && Name.isValid name

/-- The document that a file of a name holds. -/
def documentName? (file : String) : Option String :=
  let name := file.toList
  let stem := String.ofList (name.take (name.length - 4))
  if file.endsWith extension && isListed stem then some stem else none

/-- The names of the documents in a directory. A directory that is missing has none, and what has too
long a path does not count. -/
def namesIn (t : FileTree) (path : String) : Except Failure (List String) :=
  match t.list path with
  | .ok files =>
    .ok (((files.map (·.1)).filter fun file => t.isFile (Path.join path file)).filterMap documentName?)
  | .error .notFound => .ok []
  | .error f => .error (.io (.readDirectory path f))

/-- The collection that a directory below a root holds, if it holds documents. -/
def collectionOf? (t : FileTree) (root : String) (below : Place) : Option String :=
  match below.all isListed, namesIn t (below.foldl Path.join root) with
  | true, .ok (_ :: _) => some (".".intercalate below)
  | _, _ => none

/-- The names of the collections below a directory. -/
def collectionsIn (t : FileTree) (root : String) : Except Failure (List String) :=
  match t.list root, t.locate root with
  | .ok _, .ok top => .ok ((t.directoriesBelow top).filterMap (collectionOf? t root))
  | .error .notFound, _ => .ok []
  | .error f, _ | _, .error f => .error (.io (.readDirectory root f))

/-- The failure of a file that holds no document. -/
def inFile (path : String) : Failure → Failure
  | .text (.decode cause none) => .text (.decode cause (some path))
  | f => f

variable (root collection : String)

/-- The document of a name. -/
def read (name : String) : Run FileTree (Option Document) := do
  let path ← .ofExcept (filePath root collection name)
  match (← get).readText path with
  | .error .notFound => return none
  | .error f => .fail (.io (.read path f))
  | .ok text =>
    match Document.decode text with
    | .ok d => return some d
    | .error f => .fail (inFile path f)

/-- Writes a document. -/
def write (name : String) (d : Document) : Run FileTree Bool := do
  let path ← .ofExcept (filePath root collection name)
  let text ← .ofExcept d.encode
  FileTree.writeAtomically path text.toUTF8
  return true

/-- Deletes a document. -/
def delete (name : String) : Run FileTree Bool := do
  let path ← .ofExcept (filePath root collection name)
  match (← get).remove path with
  | .error .notFound => return false
  | changed =>
    FileTree.change (.delete path) changed
    return true

/-- Renames a document. -/
def rename (old new : String) : Run FileTree Bool := do
  let oldPath ← .ofExcept (filePath root collection old)
  let newPath ← .ofExcept (filePath root collection new)
  let t ← get
  -- Both names are checked before either file is looked at.
  if !t.isFile oldPath then return false
  FileTree.change (.rename oldPath newPath) (t.rename oldPath newPath)
  return true

/-- The names that start with a text. -/
def list (start : String) : Run FileTree (List String) := do
  let names ← .ofExcept (namesIn (← get) (collectionPath root collection))
  return Name.sortedUnique (names.filter (·.startsWith start))

/-- Deletes the documents whose names start with a text. -/
def deleteAll (start : String) : Run FileTree Bool := do
  (← list root collection start).foldlM (fun all name => do
    let deleted ← delete root collection name
    return all && deleted) true

/-- The storage of a collection of a directory. -/
def storage : Storage FileTree where
  contains name := return (← get).isFile (← .ofExcept (filePath root collection name))
  read := read root collection
  readMany := Storage.readEach (read root collection)
  write := write root collection
  delete := delete root collection
  rename := rename root collection
  list := list root collection
  deleteAll := deleteAll root collection
  collectionNames := return Name.sortedUnique (← .ofExcept (collectionsIn (← get) root))
  collectionName := collection
  encode d := .ofExcept d.encode
  decode text := .ofExcept (Document.decode text)

end LayeredConfig.Directory
