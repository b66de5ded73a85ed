import LayeredConfig.Value
/-!
# Key paths

A key path leads from a document through nested mappings to one value. `Document.at?` looks a value
up and `Document.without` takes it out, both through tags. `Document.with?` sets a value and makes
the mappings that are missing on the way; it has no answer where a tagged mapping is in the way.
-/

namespace LayeredConfig

/-- The name of a value in a document, and the keys that lead on from there. -/
structure KeyPath where
  first : String
  rest : List String
  deriving DecidableEq, Inhabited

namespace KeyPath

/-- All keys of a path. -/
def segments (p : KeyPath) : List String := p.first :: p.rest

/-- A path as text, its keys separated by dots. -/
def text (p : KeyPath) : String := ".".intercalate p.segments

end KeyPath

namespace Value

/-- The value that some keys lead to. -/
def at? : List String → Value → Option Value
  | [], v => some v
  | k :: rest, v => (v.entries?.bind (find? k)).bind (at? rest)

/-- The entries to go on with when a value is set below: those of a mapping, none where there is no
mapping yet, and no answer for a tagged mapping. -/
def ground? : Value → Option (List (Value × Value))
  | .mapping es => some es
  | v => if v.entries?.isSome then none else some []

/-- Sets the value that some keys lead to. -/
def with? (new : Value) : List String → Value → Option Value
  | [], _ => some new
  | k :: rest, v =>
    v.ground?.bind fun es =>
      (with? new rest ((find? k es).getD (.mapping []))).map fun inner => .mapping (put k inner es)

/-- Takes out the value that some keys lead to. -/
def without : List String → Value → Value
  | [], v => v
  | [k], v => v.mapEntries (takeOut k)
  | k :: rest, v => v.mapEntries (adjust k (without rest))

end Value

namespace Document

/-- The value at a path. -/
def at? (d : Document) (p : KeyPath) : Option Value := (d.get? p.first).bind (Value.at? p.rest)

/-- A document with a value set at a path. -/
def with? (d : Document) (p : KeyPath) (new : Value) : Option Document :=
  (Value.with? new p.rest ((d.get? p.first).getD (.mapping []))).map (d.insert p.first)

/-- A document with the value at a path taken out. -/
def without (d : Document) (p : KeyPath) : Document :=
  match p.rest with
  | [] => d.erase p.first
  | rest =>
    match d.get? p.first with
    | none => d
    | some v => d.insert p.first (v.without rest)

end Document

end LayeredConfig
