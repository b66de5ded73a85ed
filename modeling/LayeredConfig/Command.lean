import LayeredConfig.CommandLine
import LayeredConfig.Json.Pretty
import LayeredConfig.Registry
import LayeredConfig.Transfer
/-!
# Running commands

A command works on the file tree of a world. `Invocation.run` gives the text that it prints and the
failure that it ends with, if it fails.
-/

namespace LayeredConfig

namespace Command

/-- What a command prints, and how it ends. -/
structure Result where
  printed : String
  failure : Option Failure

/-- The result of a command that does not fail. -/
def Result.ok (printed : String) : Result := ⟨printed, none⟩

/-- The overlay of a file; the overlay without filters where no file is given. -/
def overlay (path : Option String) : Run World Overlay := do
  match path with
  | none => return .empty
  | some path =>
    match (← get).files.readText path with
    | .error cause => .fail (.overlay (.unreadable path cause))
    | .ok text =>
      match Overlay.ofText? text with
      | .ok o => return o
      | .error cause => .fail (.overlay cause)

/-- The default collection of a directory. -/
def directory (root : String) : Store := .directory root Name.defaultCollection

/-- A collection of a directory wrapped in an overlay. The active store is the directory itself
where none is given. -/
def openStore (o : Overlay) (root : String) (active : Option String) (collection : String) :
    Run World Store := do
  let active := directory (active.getD root)
  let store ← .ofExcept (Registry.standard.wrap none (directory root) o active)
  if collection.isEmpty then return store else store.collection collection

/-- The store that a command reads. -/
def openSelection (o : Overlay) (s : Selection) : Run World Store :=
  openStore o s.storage s.active s.collection

/-- Documents as text, in a format. -/
def render (s : Storage World) (ds : Dict Document) : OutputFormat → Run World String
  | .yaml => ds.entries.foldlM (fun text e => do
      return text ++ "--- # " ++ e.1 ++ "\n" ++ (← s.encode e.2)) ""
  | .json =>
    match Json.documents? ds with
    | some text => pure (text ++ "\n")
    | none => .fail (.text .json)

/-- Prints documents. Names without a document are a failure, after the others have been printed. -/
def readDocuments (o : Overlay) (of : Selection) (format : OutputFormat) (names : List String) :
    Run World Result := do
  let s := (← openSelection o of).storage
  let ds ← s.readMany names
  let text ← render s ds format
  -- Missing names are reported after all documents could be rendered.
  match names.filter (! ds.contains ·) with
  | [] => return .ok text
  | missing =>
    return ⟨text, some (.user ("configuration not found: " ++ ", ".intercalate missing))⟩

/-- The report of a transfer in words. -/
def summary (action : String) (r : Report) : String :=
  action ++ " complete: " ++
    (if r.hasChanges then r.text
      else "nothing to do (" ++ toString r.unchanged ++ " unchanged)") ++ "\n"

/-- Runs a command under an overlay. -/
def run (o : Overlay) : Command → Run World Result
  | .list of start => do
    let names ← (← openSelection o of).storage.list start
    return .ok (String.join (names.map (· ++ "\n")))
  | .read of format names => readDocuments o of format names
  | .takeIn sync active => do
    let wrapped ← openStore o sync active Name.defaultCollection
    return .ok (summary "Import" (← Transfer.run wrapped (directory active)))
  | .giveOut sync active => do
    let wrapped ← openStore o sync active Name.defaultCollection
    return .ok (summary "Export" (← Transfer.run (directory active) wrapped))

end Command

/-- Runs the command of an invocation. -/
def Invocation.run (i : Invocation) : Run World Command.Result := do
  let o ← Command.overlay i.config
  i.command.run o

end LayeredConfig
