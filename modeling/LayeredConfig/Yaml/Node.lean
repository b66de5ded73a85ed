import LayeredConfig.Yaml.Fault
import LayeredConfig.Yaml.Token
/-!
# Nodes

The tree of nodes that the tokens of one document describe. A tag is resolved against the directives
of the document; anchors and aliases are still names.
-/

namespace LayeredConfig.Yaml

/-- What is written before a node: its anchor, and the bytes of its resolved tag. -/
structure Properties where
  anchor : Option String
  tag : Option (List UInt8)
  deriving Inhabited

/-- A node of a document, whose aliases point to their anchors by an `ι`. -/
inductive Node (ι : Type)
  | scalar (properties : Properties) (style : Style) (text : String)
  | sequence (properties : Properties) (items : List (Node ι))
  | mapping (properties : Properties) (entries : List (Node ι × Node ι))
  | alias (target : ι)

namespace Node

/-- No anchor and no tag. -/
def bare : Properties := ⟨none, none⟩

/-- The node where nothing is written. -/
def empty {ι : Type} : Node ι := .scalar bare .plain ""

/-! ## Directives -/

/-- The handles of a document and what they stand for. -/
abbrev Handles := List (String × List UInt8)

/-- The handles that need no directive. -/
def standardHandles : Handles :=
  [("!", "!".toUTF8.toList), ("!!", "tag:yaml.org,2002:".toUTF8.toList)]

/-- Reads the directives before a document. A version is given at most once, and so is a handle. -/
def directives : Bool → Handles → List Token → Except Fault (Handles × List Token)
  | seen, handles, .version major minor :: rest =>
    if seen ∨ major ≠ 1 ∨ (minor ≠ 1 ∧ minor ≠ 2) then .error .malformedDirective
    else directives true handles rest
  | seen, handles, .tagDirective handle start :: rest =>
    if handles.any (·.1 = handle) then .error .malformedDirective
    else directives seen (handles ++ [(handle, start)]) rest
  | _, handles, rest => .ok (handles, rest)

/-- The bytes of a tag. A zero byte ends them. -/
def resolveTag (handles : Handles) (handle : String) (suffix : List UInt8) :
    Except Fault (List UInt8) :=
  if handle.isEmpty then .ok (suffix.takeWhile (· ≠ 0))
  else match (handles ++ standardHandles).find? (·.1 = handle) with
    | some h => .ok (h.2.takeWhile (· ≠ 0) ++ suffix.takeWhile (· ≠ 0))
    | none => .error .unknownTagHandle

/-- Reads the anchor and the tag before a node, in either order. -/
def properties (handles : Handles) (ts : List Token) : Except Fault (Properties × List Token) :=
  match ts with
  | .anchor a :: .tag h s :: rest =>
    (resolveTag handles h s).map fun t => (⟨some a, some t⟩, rest)
  | .anchor a :: rest => .ok (⟨some a, none⟩, rest)
  | .tag h s :: .anchor a :: rest =>
    (resolveTag handles h s).map fun t => (⟨some a, some t⟩, rest)
  | .tag h s :: rest => (resolveTag handles h s).map fun t => (⟨none, some t⟩, rest)
  | rest => .ok (bare, rest)

/-! ## Structure -/

/-- Where a node stands: in a flow collection, in a block, or in a block where a sequence may start
without more indentation. -/
inductive Context
  | flow
  | block
  | blockValue
  deriving DecidableEq

/-- Whether a block node is missing here: the next token belongs to what is around it. -/
def endsBlockNode : List Token → Bool
  | .key :: _ => true
  | .value :: _ => true
  | .blockEnd :: _ => true
  | [] => false
  | _ => false

/-- Whether an entry of a block sequence is missing here. -/
def endsBlockEntry : List Token → Bool
  | .blockEntry :: _ => true
  | .blockEnd :: _ => true
  | _ => false

/-- Whether a node of a flow sequence is missing here. -/
def endsFlowItem : List Token → Bool
  | .flowEntry :: _ => true
  | .flowSequenceEnd :: _ => true
  | _ => false

/-- Whether a node of a flow mapping is missing here. -/
def endsFlowField : List Token → Bool
  | .flowEntry :: _ => true
  | .flowMappingEnd :: _ => true
  | _ => false

/-- An anchor or a tag alone is a node without text. -/
def bareNode (p : Properties) (rest : List Token) : Except Fault (Node String × List Token) :=
  if p.anchor.isSome ∨ p.tag.isSome then .ok (.scalar p .plain "", rest)
  else .error .unexpectedToken

mutual

/-- Reads a node. -/
def node (handles : Handles) : Nat → Context → List Token → Except Fault (Node String × List Token)
  | 0, _, _ => .error .unexpectedToken
  | fuel + 1, context, ts =>
    match ts with
    | .alias name :: rest => .ok (.alias name, rest)
    | _ => do
      let (p, ts) ← properties handles ts
      match context, ts with
      -- A sequence at the column of its key has no start sign of its own.
      | .blockValue, .blockEntry :: _ => do
        let (items, rest) ← indentlessItems handles fuel ts
        .ok (.sequence p items, rest)
      | _, .scalar style text :: rest => .ok (.scalar p style text, rest)
      | _, .flowSequenceStart :: rest => do
        let (items, rest) ← flowItems handles fuel true rest
        .ok (.sequence p items, rest)
      | _, .flowMappingStart :: rest => do
        let (entries, rest) ← flowFields handles fuel true rest
        .ok (.mapping p entries, rest)
      | .flow, rest => bareNode p rest
      | _, .blockSequenceStart :: rest => do
        let (items, rest) ← blockItems handles fuel rest
        .ok (.sequence p items, rest)
      | _, .blockMappingStart :: rest => do
        let (entries, rest) ← blockFields handles fuel rest
        .ok (.mapping p entries, rest)
      | _, rest => bareNode p rest

/-- Reads the entries of a block sequence. -/
def blockItems (handles : Handles) :
    Nat → List Token → Except Fault (List (Node String) × List Token)
  | 0, _ => .error .unexpectedToken
  | fuel + 1, ts =>
    match ts with
    | .blockEntry :: rest => do
      let (item, rest) ←
        if endsBlockEntry rest then .ok (empty, rest) else node handles fuel .block rest
      let (items, rest) ← blockItems handles fuel rest
      .ok (item :: items, rest)
    | .blockEnd :: rest => .ok ([], rest)
    | _ => .error .unexpectedToken

/-- Reads the entries of a block sequence that stands at the indentation of the mapping around it.
-/
def indentlessItems (handles : Handles) :
    Nat → List Token → Except Fault (List (Node String) × List Token)
  | 0, _ => .error .unexpectedToken
  | fuel + 1, ts =>
    match ts with
    | .blockEntry :: rest => do
      let (item, rest) ←
        if endsBlockEntry rest || endsBlockNode rest then .ok (empty, rest)
        else node handles fuel .block rest
      let (items, rest) ← indentlessItems handles fuel rest
      .ok (item :: items, rest)
    | rest => .ok ([], rest)

/-- Reads the entries of a block mapping. -/
def blockFields (handles : Handles) :
    Nat → List Token → Except Fault (List (Node String × Node String) × List Token)
  | 0, _ => .error .unexpectedToken
  | fuel + 1, ts =>
    match ts with
    | .blockEnd :: rest => .ok ([], rest)
    | .key :: rest => do
      let (k, rest) ←
        if endsBlockNode rest then .ok (empty, rest) else node handles fuel .blockValue rest
      let (v, rest) ← blockFieldValue handles fuel rest
      let (fields, rest) ← blockFields handles fuel rest
      .ok ((k, v) :: fields, rest)
    | _ => .error .unexpectedToken

/-- Reads the value of an entry of a block mapping. -/
def blockFieldValue (handles : Handles) : Nat → List Token → Except Fault (Node String × List Token)
  | 0, _ => .error .unexpectedToken
  | fuel + 1, ts =>
    match ts with
    | .value :: rest =>
      if endsBlockNode rest then .ok (empty, rest) else node handles fuel .blockValue rest
    | _ => .ok (empty, ts)

/-- Reads the items of a flow sequence. A key among them starts a mapping of one entry. -/
def flowItems (handles : Handles) :
    Nat → Bool → List Token → Except Fault (List (Node String) × List Token)
  | 0, _, _ => .error .unexpectedToken
  | fuel + 1, first, ts =>
    match ts with
    | .flowSequenceEnd :: rest => .ok ([], rest)
    | _ => do
      let ts ←
        if first then .ok ts
        else match ts with
          | .flowEntry :: rest => .ok rest
          | _ => .error .unexpectedToken
      match ts with
      | .flowSequenceEnd :: rest => .ok ([], rest)
      | .key :: rest => do
        let (pair, rest) ← flowPair handles fuel rest
        let (items, rest) ← flowItems handles fuel false rest
        .ok (.mapping bare [pair] :: items, rest)
      | _ => do
        let (item, rest) ← node handles fuel .flow ts
        let (items, rest) ← flowItems handles fuel false rest
        .ok (item :: items, rest)

/-- Reads a mapping of one entry in a flow sequence, after its key sign. Where the key is missing,
the token in its place is lost. -/
def flowPair (handles : Handles) :
    Nat → List Token → Except Fault ((Node String × Node String) × List Token)
  | 0, _ => .error .unexpectedToken
  | fuel + 1, ts => do
    let (k, rest) ←
      match ts with
      | .value :: rest => .ok (empty, rest)
      | _ => if endsFlowItem ts then .ok (empty, ts.drop 1) else node handles fuel .flow ts
    match rest with
    | .value :: rest =>
      if endsFlowItem rest then .ok ((k, empty), rest)
      else do
        let (v, rest) ← node handles fuel .flow rest
        .ok ((k, v), rest)
    | _ => .ok ((k, empty), rest)

/-- Reads the entries of a flow mapping. -/
def flowFields (handles : Handles) :
    Nat → Bool → List Token → Except Fault (List (Node String × Node String) × List Token)
  | 0, _, _ => .error .unexpectedToken
  | fuel + 1, first, ts =>
    match ts with
    | .flowMappingEnd :: rest => .ok ([], rest)
    | _ => do
      let ts ←
        if first then .ok ts
        else match ts with
          | .flowEntry :: rest => .ok rest
          | _ => .error .unexpectedToken
      match ts with
      | .flowMappingEnd :: rest => .ok ([], rest)
      | .key :: rest => do
        let (k, rest) ←
          match rest with
          | .value :: _ => .ok (empty, rest)
          | _ => if endsFlowField rest then .ok (empty, rest) else node handles fuel .flow rest
        let (v, rest) ←
          match rest with
          | .value :: rest =>
            if endsFlowField rest then .ok (empty, rest) else node handles fuel .flow rest
          | _ => .ok (empty, rest)
        let (fields, rest) ← flowFields handles fuel false rest
        .ok ((k, v) :: fields, rest)
      | _ => do
        let (k, rest) ← node handles fuel .flow ts
        let (fields, rest) ← flowFields handles fuel false rest
        .ok ((k, empty) :: fields, rest)

end

/-! ## Documents -/

/-- Whether a text has no content before the next document. -/
def endsDocument : List Token → Bool
  | [] => true
  | .version .. :: _ => true
  | .tagDirective .. :: _ => true
  | .documentStart :: _ => true
  | .documentEnd :: _ => true
  | _ => false

/-- The only document of a text, or nothing for a text without documents. Each step of the reader
takes a token or leads to one that does, so four steps per token suffice. -/
def ofTokens? (ts : List Token) : Except Fault (Option (Node String)) :=
  match ts with
  | [] => .ok none
  | _ => do
    let (handles, rest) ← directives false [] ts
    let body ←
      match rest with
      | .documentStart :: body => .ok body
      | _ => if ts.length = rest.length then .ok rest else .error .unexpectedToken
    let explicit := ts.length ≠ body.length
    let (root, rest) ←
      if explicit && endsDocument body then .ok (empty, body)
      else node handles (4 * body.length + 4) .block body
    if rest.all (· = .documentEnd) then .ok (some root) else .error .manyDocuments

end Node

end LayeredConfig.Yaml
