import LayeredConfig.Yaml.Node
import LayeredConfig.Yaml.Token.Lexer
import LayeredConfig.Yaml.Plain
/-!
# From nodes to values

Aliases are replaced by what they name, scalars by what they stand for. Nesting is limited to 128
collections, and following aliases to a hundred times as often as the text has nodes and ends of
collections. Beside values there are readers for the parts of structures with fixed fields.
-/

namespace LayeredConfig.Yaml

/-! ## Anchors -/

namespace Node

/-- The numbers that anchored names have at a place. -/
abbrev Numbers := List (String × Nat)

/-- The nodes that numbers stand for; the last node under a number counts. -/
abbrev Anchors := List (Nat × Node Nat)

/-- The number of a name. -/
def number? (numbers : Numbers) (name : String) : Option Nat :=
  (numbers.find? (·.1 = name)).map (·.2)

/-- Gives a name a number: that of how many names there were before. -/
def enter (numbers : Numbers) : Option String → Numbers
  | none => numbers
  | some name => (name, numbers.length) :: numbers.filter (·.1 ≠ name)

/-- The entry of an anchored node. -/
def entry (numbers : Numbers) (p : Properties) (n : Node Nat) : Anchors :=
  if p.anchor.isSome then [(numbers.length, n)] else []

mutual

/-- Replaces the names of aliases by numbers, in the order of the text, and lists the anchored nodes
in the order in which they start. -/
def numbered (numbers : Numbers) : Node String → Except Fault (Node Nat × Numbers × Anchors)
  | .alias name =>
    match number? numbers name with
    | some n => .ok (.alias n, numbers, [])
    | none => .error .unknownAnchor
  | .scalar p style text =>
    let n := .scalar p style text
    .ok (n, enter numbers p.anchor, entry numbers p n)
  | .sequence p items => do
    let (items, after, anchors) ← numberedItems (enter numbers p.anchor) items
    let n := .sequence p items
    .ok (n, after, entry numbers p n ++ anchors)
  | .mapping p entries => do
    let (entries, after, anchors) ← numberedEntries (enter numbers p.anchor) entries
    let n := .mapping p entries
    .ok (n, after, entry numbers p n ++ anchors)

/-- The same for the items of a sequence. -/
def numberedItems (numbers : Numbers) :
    List (Node String) → Except Fault (List (Node Nat) × Numbers × Anchors)
  | [] => .ok ([], numbers, [])
  | n :: rest => do
    let (n, numbers, anchors) ← numbered numbers n
    let (rest, numbers, more) ← numberedItems numbers rest
    .ok (n :: rest, numbers, anchors ++ more)

/-- The same for the entries of a mapping. -/
def numberedEntries (numbers : Numbers) :
    List (Node String × Node String) → Except Fault (List (Node Nat × Node Nat) × Numbers × Anchors)
  | [] => .ok ([], numbers, [])
  | (k, v) :: rest => do
    let (k, numbers, anchors) ← numbered numbers k
    let (v, numbers, more) ← numbered numbers v
    let (rest, numbers, most) ← numberedEntries numbers rest
    .ok ((k, v) :: rest, numbers, anchors ++ more ++ most)

end

mutual

/-- How many nodes and ends of collections a node has. -/
def extent : Node Nat → Nat
  | .alias _ => 1
  | .scalar .. => 1
  | .sequence _ items => 2 + extentItems items
  | .mapping _ entries => 2 + extentEntries entries

/-- The same for the items of a sequence. -/
def extentItems : List (Node Nat) → Nat
  | [] => 0
  | n :: rest => extent n + extentItems rest

/-- The same for the entries of a mapping. -/
def extentEntries : List (Node Nat × Node Nat) → Nat
  | [] => 0
  | (k, v) :: rest => extent k + extent v + extentEntries rest

end

end Node

/-! ## Following aliases -/

/-- What a document's aliases stand for, and how often they may be followed. -/
structure Aliases where
  anchors : Node.Anchors
  limit : Nat

/-- Reading counts the aliases that have been followed. -/
abbrev Reading := StateT Nat (Except Fault)

/-- The node itself, or the one that it is an alias of. -/
def Aliases.follow (a : Aliases) (n : Node Nat) : Reading (Node Nat) :=
  match n with
  | .alias number => do
    let count ← get
    if a.limit < count + 1 then throw .tooManyAliases
    set (count + 1)
    match a.anchors.reverse.find? (·.1 = number) with
    | some e => pure e.2
    | none => throw .unknownAnchor
  | n => pure n

/-! ## Values -/

/-- A tag that YAML itself knows. -/
def coreTag (name : String) : List UInt8 := ("tag:yaml.org,2002:" ++ name).toUTF8.toList

/-- A local tag as text, without its exclamation mark unless that is all of it. -/
def localTag? (tag : List UInt8) : Option String :=
  match tag with
  | [] => none
  | b :: rest =>
    let name := if rest.isEmpty then tag else rest
    if b = 33 then String.fromUTF8? (ByteArray.mk name.toArray) else none

/-- The value of a plain scalar. -/
def Plain.value (text : String) : Plain → Except Fault Value
  | .null => .ok .null
  | .bool b => .ok (.bool b)
  | .integer n => .ok (.integer n)
  | .wide => .error .wideInteger
  | .float x => .ok (.float x)
  | .text => .ok (.string text)

/-- The value of a scalar without a local tag. -/
def scalarValue (tag : Option (List UInt8)) (style : Style) (text : String) : Except Fault Value :=
  let cs := text.toList
  let byStyle : Except Fault Value :=
    if style = .plain then (Plain.ofText cs).value text else .ok (.string text)
  match tag with
  | none => byStyle
  | some t =>
    if t = coreTag "bool" then
      match Plain.bool? cs with
      | some b => .ok (.bool b)
      | none => .error .wrongKind
    else if t = coreTag "int" then
      match Plain.integer? cs with
      | some p => p.value text
      | none => .error .wrongKind
    else if t = coreTag "float" then
      match Plain.float? cs with
      | some x => .ok (.float x)
      | none => .error .wrongKind
    else if t = coreTag "null" then
      if Plain.isNull cs then .ok .null else .error .wrongKind
    else if t.head? = some 33 then byStyle
    else .ok (.string text)

/-- Puts a value under the local tag of its node. -/
def withTag (p : Properties) (v : Value) : Value :=
  match p.tag.bind localTag? with
  | some t => .tagged (Value.plainTag t) v
  | none => v

/-- The value of a scalar node. -/
def scalarNode (p : Properties) (style : Style) (text : String) : Except Fault Value :=
  match p.tag.bind localTag? with
  | some t => (scalarValue none style text).map (.tagged (Value.plainTag t))
  | none => scalarValue p.tag style text

/-- Reads entries one after the other and refuses a key that is there already. -/
def readEntries (read : Node Nat → Reading Value) :
    List (Value × Value) → List (Node Nat × Node Nat) → Reading (List (Value × Value))
  | done, [] => pure done
  | done, (k, v) :: rest => do
    let k ← read k
    -- Keys are compared as values: 1 and 0x1 are the same key.
    if done.any (fun e => e.1.same k) then throw .duplicateKey
    let v ← read v
    readEntries read (done ++ [(k, v)]) rest

/-- The value of a node, within a number of levels of nesting. -/
def Aliases.value (a : Aliases) : Nat → Node Nat → Reading Value
  | 0, n => do
    match ← a.follow n with
    | .scalar p style text => scalarNode p style text
    | _ => throw .tooDeep
  | depth + 1, n => do
    match ← a.follow n with
    | .scalar p style text => scalarNode p style text
    | .sequence p items => do
      let vs ← items.mapM (a.value depth)
      pure (withTag p (.sequence vs))
    | .mapping p entries => do
      let es ← readEntries (a.value depth) [] entries
      pure (withTag p (.mapping es))
    | .alias _ => throw .unknownAnchor

/-! ## Fixed fields -/

/-- Whether nothing is written where a collection is expected. -/
def isBlankNode : Node Nat → Bool
  | .scalar _ .plain text => text.isEmpty
  | _ => false

/-- The text of a scalar, whatever it stands for. -/
def Aliases.text (a : Aliases) (n : Node Nat) : Reading String := do
  match ← a.follow n with
  | .scalar _ _ text => pure text
  | _ => throw .wrongKind

/-- The entries of a mapping; none where nothing is written. -/
def Aliases.entries (a : Aliases) (depth : Nat) (n : Node Nat) :
    Reading (List (Node Nat × Node Nat)) := do
  match ← a.follow n with
  | .mapping _ entries => if depth = 0 then throw .tooDeep else pure entries
  | n => if isBlankNode n then pure [] else throw .wrongKind

/-- The items of a sequence; none where nothing is written. -/
def Aliases.items (a : Aliases) (depth : Nat) (n : Node Nat) : Reading (List (Node Nat)) := do
  match ← a.follow n with
  | .sequence _ items => if depth = 0 then throw .tooDeep else pure items
  | n => if isBlankNode n then pure [] else throw .wrongKind

/-- The text of a scalar that may stand for something else than text: plain, or a literal block
under the core tag. -/
def literalText (kind : String) : Node Nat → Option (List Char)
  | .scalar _ .plain text => some text.toList
  | .scalar p .literal text => if p.tag = some (coreTag kind) then some text.toList else none
  | _ => none

/-- A truth value. -/
def Aliases.bool (a : Aliases) (n : Node Nat) : Reading Bool := do
  match (literalText "bool" (← a.follow n)).bind Plain.bool? with
  | some b => pure b
  | none => throw .wrongKind

/-- An integer of 32 bits. -/
def Aliases.int32 (a : Aliases) (n : Node Nat) : Reading Int := do
  match (literalText "int" (← a.follow n)).bind Plain.integer? with
  | some (.integer i) => if -2147483648 ≤ i ∧ i ≤ 2147483647 then pure i else throw .wrongKind
  | _ => throw .wrongKind

/-- Values under names; the last one under a name counts. -/
def Aliases.fields (a : Aliases) (depth : Nat) (n : Node Nat) : Reading Document := do
  let entries ← a.entries depth n
  let pairs ← entries.mapM fun e => do
    let k ← a.text e.1
    let v ← a.value (depth - 1) e.2
    pure (k, v)
  pure (Dict.ofList pairs)

/-! ## Texts -/

/-- How deep collections may be nested. -/
def maxDepth : Nat := 128

/-- Reads the document of a text: `absent` is the answer for a text without one. -/
def read {α : Type} (text : String) (absent : α) (f : Aliases → Node Nat → Reading α) :
    Except Fault α := do
  match ← Node.ofTokens? (← Token.ofText? text.toList) with
  | none => .ok absent
  | some root => do
    let (root, _, anchors) ← root.numbered []
    let (result, _) ← f ⟨anchors, 100 * root.extent⟩ root 0
    .ok result

/-- Whether a scalar says that there is no document. -/
def isNullNode : Node Nat → Except Fault Bool
  | .scalar p .plain text =>
    let null := Plain.isNull text.toList
    match p.tag with
    | none => .ok (text.isEmpty || null)
    | some t =>
      if t = coreTag "null" then (if null then .ok true else .error .wrongKind) else .ok false
  | _ => .ok false

/-- The document of a text. A text without content, and null, stand for the empty document. -/
def document (text : String) : Except Fault Document :=
  read text ∅ fun a root => do
    if ← isNullNode root then pure ∅ else a.fields maxDepth root

end LayeredConfig.Yaml
