import LayeredConfig.FileTree
import LayeredConfig.Value
/-!
# File trees as documents

A file tree can be handed over as a document: under each path the text of a file, or null for a
directory. Files that hold no text are left out.
-/

namespace LayeredConfig.FileTree

/-- Makes the directories above a path. -/
def withParents (t : FileTree) (path : String) : FileTree :=
  match Path.parent? path with
  | some parent => (t.makeDirectories (parent.length + 1) parent).1
  | none => t

/-- Enters a file or a directory. -/
def enter (t : FileTree) (path : String) : Value → FileTree
  | .string text =>
    match (t.withParents path).write path text.toUTF8 with
    | .ok t => t
    | .error _ => t
  | _ => (t.makeDirectories (path.length + 1) path).1

/-- The file tree that a document describes. -/
def ofDocument (d : Document) : FileTree := d.entries.foldl (fun t e => t.enter e.1 e.2) empty

/-- A file or a directory as an entry of a document. -/
def field? (e : Place × Entry) : Option (String × Value) :=
  match e.2 with
  | .directory => some ("/".intercalate e.1, .null)
  | .file content => (String.fromUTF8? content).map fun text => ("/".intercalate e.1, .string text)

/-- The document that describes a file tree. -/
def toDocument (t : FileTree) : Document := .ofList (t.entries.filterMap field?)

end LayeredConfig.FileTree
