import LayeredConfig.Run
/-!
# Writing a file at once

A file is written beside its place, under a hidden name, and then moved over it: its place never
holds a part of the content. Directories that are missing above it are made first.
-/

namespace LayeredConfig.FileTree

/-- Goes on in a changed tree, or stops. -/
def change (failure : OsFault → IoFailure) : Except OsFault FileTree → Run FileTree Unit
  | .ok t => set t
  | .error f => .fail (.io (failure f))

/-- The hidden file beside a path. -/
def temporary (path : String) : Except Failure String :=
  match Path.fileName? path with
  | none => .error (.io (.badPath path))
  | some name => .ok (Path.join ((Path.parent? path).getD ".") ("." ++ name ++ ".tmp"))

/-- Makes the directories above a path. -/
def makeParents (path : String) : Run FileTree Unit := do
  match Path.parent? path with
  | none => return
  | some parent =>
    let t ← get
    if parent.isEmpty || t.exists? parent then return
    let (t, fault) := t.makeDirectories (path.length + 1) parent
    set t
    match fault with
    | none => return
    | some f => .fail (.io (.createDirectory parent f))

/-- Writes a file at once. -/
def writeAtomically (path : String) (content : ByteArray) : Run FileTree Unit := do
  makeParents path
  let hidden ← .ofExcept (temporary path)
  change (.createTemporary hidden) ((← get).write hidden content)
  let t ← get
  match t.rename hidden path with
  | .ok t => set t
  | .error f =>
    -- A move that fails leaves no hidden file behind.
    set (match t.remove hidden with
      | .ok t => t
      | .error _ => t)
    .fail (.io (.replace path f))

end LayeredConfig.FileTree
