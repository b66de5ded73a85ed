import LayeredConfig.Path
/-!
# File trees

A file tree says for each place whether there is a file, a directory or nothing. A place is the list
of names that lead to it from the top. Paths are followed like a file system follows them, and the
operations fail for the same causes (`OsFault`).
-/

namespace LayeredConfig

/-- A cause for which a file operation fails. -/
inductive OsFault
  | notFound
  | deviceBusy
  | alreadyExists
  | notDirectory
  | isDirectory
  | nameTooLong
  | invalidText
  | zeroInPath
  deriving DecidableEq

/-- The cause in words. -/
def OsFault.message : OsFault → String
  | .notFound => "No such file or directory (os error 2)"
  | .deviceBusy => "Device or resource busy (os error 16)"
  | .alreadyExists => "File exists (os error 17)"
  | .notDirectory => "Not a directory (os error 20)"
  | .isDirectory => "Is a directory (os error 21)"
  | .nameTooLong => "File name too long (os error 36)"
  | .invalidText => "stream did not contain valid UTF-8"
  | .zeroInPath => "file name contained an unexpected NUL byte"

/-- What is at a place. -/
inductive Entry
  | file (content : ByteArray)
  | directory

instance : Inhabited Entry := ⟨.directory⟩

/-- Whether an entry is a file. -/
def Entry.isFile : Entry → Bool
  | .file _ => true
  | .directory => false

/-- The names that lead to a place. -/
abbrev Place := List String

/-- The files and directories below a directory, which is not listed itself. -/
structure FileTree where
  entries : List (Place × Entry)

namespace FileTree

/-! ## Places -/

/-- The empty tree. -/
def empty : FileTree := ⟨[]⟩

/-- The entry at a place in a list. -/
def find? (p : Place) : List (Place × Entry) → Option Entry
  | [] => none
  | e :: rest => if e.1 = p then some e.2 else find? p rest

/-- What is at a place. -/
def at? (t : FileTree) (p : Place) : Option Entry :=
  if p = [] then some .directory else find? p t.entries

/-- Puts an entry at a place. -/
def put (t : FileTree) (p : Place) (e : Entry) : FileTree :=
  ⟨(p, e) :: t.entries.filter fun x => x.1 ≠ p⟩

/-- Takes out what is at a place. -/
def drop (t : FileTree) (p : Place) : FileTree := ⟨t.entries.filter fun x => x.1 ≠ p⟩

/-- The names in a directory and what they are. -/
def children (t : FileTree) (p : Place) : List (String × Entry) :=
  t.entries.filterMap fun e =>
    match e.1.getLast? with
    | some name => if e.1.dropLast = p then some (name, e.2) else none
    | none => none

/-- The directories below a place, each by the names that lead on to it. -/
def directoriesBelow (t : FileTree) (p : Place) : List Place :=
  t.entries.filterMap fun e =>
    if !e.2.isFile && e.1.take p.length = p && p.length < e.1.length then some (e.1.drop p.length)
    else none

/-! ## Following paths -/

/-- The greatest length of a name in a directory, in bytes. -/
def maxNameBytes : Nat := 255

/-- The length that a path has to stay below, in bytes. -/
def pathLimit : Nat := 4096

/-- Follows names from a place on. Each but the last has to lead to a directory; the last one may
lead to nothing. -/
def walk (t : FileTree) : Place → List String → Except OsFault Place
  | p, [] => .ok p
  | p, name :: rest =>
    match t.at? p with
    | none => .error .notFound
    | some (.file _) => .error .notDirectory
    | some .directory =>
      if name = "." then walk t p rest
      else if name = ".." then walk t p.dropLast rest
      else if maxNameBytes < name.utf8ByteSize then .error .nameTooLong
      else walk t (p ++ [name]) rest

/-- What is wrong with a path as a text. -/
def checkPath (path : String) : Except OsFault Unit :=
  if path.toList.contains '\x00' then .error .zeroInPath
  else if path.isEmpty then .error .notFound
  else if pathLimit ≤ path.utf8ByteSize then .error .nameTooLong
  else .ok ()

/-- The place that a path leads to. -/
def locate (t : FileTree) (path : String) : Except OsFault Place := do
  checkPath path
  -- A slash at the end asks for a directory, like a last step to itself.
  t.walk [] (Path.steps path ++ if Path.endsInSlash path then ["."] else [])

/-- What is at the end of a path. -/
def stat (t : FileTree) (path : String) : Except OsFault Entry := do
  match t.at? (← t.locate path) with
  | some e => .ok e
  | none => .error .notFound

/-- Whether there is something at the end of a path. -/
def exists? (t : FileTree) (path : String) : Bool :=
  match t.stat path with
  | .ok _ => true
  | .error _ => false

/-- Whether there is a file at the end of a path. -/
def isFile (t : FileTree) (path : String) : Bool :=
  match t.stat path with
  | .ok e => e.isFile
  | .error _ => false

/-- Whether there is a directory at the end of a path. -/
def isDirectory (t : FileTree) (path : String) : Bool :=
  match t.stat path with
  | .ok e => !e.isFile
  | .error _ => false

/-! ## Reading -/

/-- The content of a file. -/
def read (t : FileTree) (path : String) : Except OsFault ByteArray := do
  match ← t.stat path with
  | .file content => .ok content
  | .directory => .error .isDirectory

/-- The content of a file as text. -/
def readText (t : FileTree) (path : String) : Except OsFault String := do
  match String.fromUTF8? (← t.read path) with
  | some s => .ok s
  | none => .error .invalidText

/-- The names in a directory and what they are. -/
def list (t : FileTree) (path : String) : Except OsFault (List (String × Entry)) := do
  let p ← t.locate path
  match t.at? p with
  | some .directory => .ok (t.children p)
  | some (.file _) => .error .notDirectory
  | none => .error .notFound

/-! ## Changing -/

/-- The place at the end of a path where something may be made or taken away. A path that ends in
dots leads to none. -/
def slot (t : FileTree) (path : String) (dots : OsFault) : Except OsFault Place := do
  checkPath path
  let steps := Path.steps path
  let p ← t.walk [] steps
  match steps.getLast? with
  | none => .error dots
  | some name => if name = "." ∨ name = ".." then .error dots else .ok p

/-- Makes a directory. -/
def makeDirectory (t : FileTree) (path : String) : Except OsFault FileTree := do
  let p ← t.slot path .alreadyExists
  match t.at? p with
  | some _ => .error .alreadyExists
  | none => .ok (t.put p .directory)

/-- Makes a directory and those above it that are missing: the tree afterwards, and what went wrong.
-/
def makeDirectories (t : FileTree) : Nat → String → FileTree × Option OsFault
  | 0, _ => (t, some .notFound)
  | fuel + 1, path =>
    if path.isEmpty then (t, none)
    else match t.makeDirectory path with
      | .ok t => (t, none)
      | .error .notFound =>
        match Path.parent? path with
        | none => (t, some .notFound)
        | some above =>
          match t.makeDirectories fuel above with
          | (t, some f) => (t, some f)
          | (t, none) =>
            match t.makeDirectory path with
            | .ok t => (t, none)
            | .error f => (t, if t.isDirectory path then none else some f)
      | .error f => (t, if t.isDirectory path then none else some f)

/-- Writes a file from its start, making it if it is not there. -/
def write (t : FileTree) (path : String) (content : ByteArray) : Except OsFault FileTree := do
  let p ← t.slot path .isDirectory
  match t.at? p with
  | some .directory => .error .isDirectory
  | some (.file _) =>
    if Path.endsInSlash path then .error .notDirectory else .ok (t.put p (.file content))
  | none => if Path.endsInSlash path then .error .isDirectory else .ok (t.put p (.file content))

/-- Takes a file away. -/
def remove (t : FileTree) (path : String) : Except OsFault FileTree := do
  let p ← t.slot path .isDirectory
  match t.at? p with
  | none => .error .notFound
  | some .directory => .error .isDirectory
  | some (.file _) => if Path.endsInSlash path then .error .notDirectory else .ok (t.drop p)

/-- Moves a file, over a file that is there already. -/
def rename (t : FileTree) (old new : String) : Except OsFault FileTree := do
  let p ← t.slot old .deviceBusy
  let q ← t.slot new .deviceBusy
  match t.at? p with
  | none => .error .notFound
  | some .directory => .error .isDirectory
  | some (.file content) =>
    if Path.endsInSlash old || Path.endsInSlash new then .error .notDirectory
    else match t.at? q with
      | some .directory => .error .isDirectory
      | _ => .ok ((t.drop p).put q (.file content))

end FileTree

end LayeredConfig
