import LayeredConfig.Codec
/-!
# Overlays

An overlay declares the filters that wrap a store. It is read from YAML and written as YAML;
`Overlay.check` refuses blank and repeated ids, and `Overlay.enabled` lists the declarations that
count, in the order of their weights.
-/

namespace LayeredConfig

/-- A filter of an overlay. -/
structure Declaration where
  id : String
  weight : Int
  status : Bool
  settings : Document

/-- An enabled filter of weight zero without settings. -/
def Declaration.ofId (id : String) : Declaration := ⟨id, 0, true, ∅⟩

/-- Filters in the order in which they are declared. -/
structure Overlay where
  declarations : List Declaration

namespace Overlay

/-- The overlay without filters. -/
def empty : Overlay := ⟨[]⟩

instance : Inhabited Overlay := ⟨empty⟩

/-! ## Reading -/

/-- Reads what is under one of the known fields of a mapping; the fields are read at most once each,
and other fields are skipped. -/
def readFields {σ : Type} (a : Yaml.Aliases) (known : List String)
    (set : σ → String → Yaml.Node Nat → Yaml.Reading σ) :
    σ → List String → List (Yaml.Node Nat × Yaml.Node Nat) → Yaml.Reading σ
  | s, _, [] => pure s
  | s, seen, (k, v) :: rest => do
    let name ← a.text k
    if !known.contains name then readFields a known set s seen rest
    else if seen.contains name then throw .duplicateKey
    else readFields a known set (← set s name v) (name :: seen) rest

/-- What has been read of a declaration. -/
structure DeclarationDraft where
  id : Option String
  rest : Declaration

/-- Reads a declaration. -/
def readDeclaration (a : Yaml.Aliases) (depth : Nat) (n : Yaml.Node Nat) :
    Yaml.Reading Declaration := do
  let set (d : DeclarationDraft) (name : String) (v : Yaml.Node Nat) :
      Yaml.Reading DeclarationDraft := do
    if name = "id" then return { d with id := some (← a.text v) }
    else if name = "weight" then return { d with rest.weight := ← a.int32 v }
    else if name = "status" then return { d with rest.status := ← a.bool v }
    else return { d with rest.settings := ← a.fields (depth - 1) v }
  let entries ← a.entries depth n
  let d ← readFields a ["id", "weight", "status", "settings"] set ⟨none, .ofId ""⟩ [] entries
  match d.id with
  | some id => return { d.rest with id := id }
  | none => throw (.missingField "id")

/-- Reads an overlay. -/
def readOverlay (a : Yaml.Aliases) (depth : Nat) (n : Yaml.Node Nat) : Yaml.Reading Overlay := do
  let set (_ : Overlay) (_ : String) (v : Yaml.Node Nat) : Yaml.Reading Overlay := do
    let items ← a.items (depth - 1) v
    return ⟨← items.mapM (readDeclaration a (depth - 2))⟩
  readFields a ["filters"] set empty [] (← a.entries depth n)

/-! ## Checking -/

/-- The first id that is blank or that stands among the ids seen before it. -/
def checkIds : List String → List String → Except OverlayFailure Unit
  | _, [] => .ok ()
  | seen, id :: rest =>
    if (Text.trim id).isEmpty then .error .blankId
    else if seen.contains id then .error (.duplicateId id)
    else checkIds (id :: seen) rest

/-- Refuses ids that are blank or repeated. -/
def check (o : Overlay) : Except OverlayFailure Unit := checkIds [] (o.declarations.map (·.id))

/-- The overlay of a text. A text without content stands for the overlay without filters. -/
def ofText? (text : String) : Except OverlayFailure Overlay :=
  if (Text.trim text).isEmpty then .ok empty
  else match Yaml.read text empty (readOverlay · Yaml.maxDepth) with
    | .error fault => .error (.malformed fault)
    | .ok o => (o.check).map fun _ => o

/-! ## Writing -/

/-- A declaration as a value. Empty settings are left out. -/
def valueOf (d : Declaration) : Value :=
  .mapping ([(.string "id", .string d.id), (.string "weight", .integer d.weight),
    (.string "status", .bool d.status)] ++
    if d.settings.isEmpty then [] else [(.string "settings", Yaml.valueOf d.settings)])

/-- The text of an overlay. -/
def text (o : Overlay) : Except OverlayFailure String :=
  match Yaml.encode (.mapping [(.string "filters", .sequence (o.declarations.map valueOf))]) with
  | .ok text => .ok text
  | .error fault => .error (.unwritable fault)

/-! ## Order -/

/-- Whether a declaration comes before another one, or is equal to it in weight and id. -/
def precedes (a b : Declaration) : Bool :=
  a.weight < b.weight || (a.weight == b.weight && a.id ≤ b.id)

/-- The enabled declarations, by weight and then by id. -/
def enabled (o : Overlay) : List Declaration :=
  (o.declarations.filter (·.status)).mergeSort precedes

/-! ## Sameness -/

/-- The same declaration. -/
def sameDeclaration (a b : Declaration) : Bool :=
  a.id == b.id && a.weight == b.weight && a.status == b.status && a.settings.same b.settings

/-- The same declarations one by one. -/
def sameDeclarations : List Declaration → List Declaration → Bool
  | [], [] => true
  | a :: as, b :: bs => sameDeclaration a b && sameDeclarations as bs
  | _, _ => false

/-- The same overlay. -/
def same (o p : Overlay) : Bool := sameDeclarations o.declarations p.declarations

end Overlay

end LayeredConfig
