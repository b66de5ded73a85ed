import LayeredConfig.Yaml.Token.Scalar
import LayeredConfig.Yaml.Token.Property
/-!
# From text to tokens

`Token.ofText?` cuts a YAML text into tokens. A node that a colon follows on the same line becomes a
key after the fact, so the lexer remembers where such a node started (`Candidate`), one per level of
flow collections. Indentation opens and closes block collections.
-/

namespace LayeredConfig.Yaml

/-- A node that becomes a key if a colon follows it. -/
structure Candidate where
  /-- Whether nothing but a key may stand there. -/
  required : Bool
  /-- How many tokens stand before it. -/
  position : Nat
  index : Nat
  line : Nat
  column : Nat

/-- The lexer between two tokens. -/
structure Lexer where
  place : Cursor
  /-- The tokens so far, the last one first. -/
  tokens : List Token
  /-- The candidates of the flow collections around the place, the innermost one first, and last the
  one outside of them. -/
  candidates : List (Option Candidate)
  /-- Whether a node at the place may become a key. -/
  keyAllowed : Bool
  /-- The column of the innermost block collection, `-1` outside of all. -/
  indent : Int
  /-- The columns of the block collections around it. -/
  outer : List Int

namespace Lexer

/-- The start of a text. -/
def start (text : List Char) : Lexer :=
  { place := .start text, tokens := [], candidates := [none], keyAllowed := true, indent := -1,
    outer := [] }

/-- Whether the place is in a flow collection. -/
def inFlow (l : Lexer) : Bool := 1 < l.candidates.length

/-- Adds a token. -/
def emit (t : Token) (l : Lexer) : Lexer := { l with tokens := t :: l.tokens }

/-- Adds a token and goes on by some characters. -/
def advance (t : Token) (n : Nat) (l : Lexer) : Lexer := { l.emit t with place := l.place.skip n }

/-- Puts a token after the first `position` ones. -/
def emitAt (position : Nat) (t : Token) (l : Lexer) : Lexer :=
  let later := l.tokens.length - position
  { l with tokens := l.tokens.take later ++ t :: l.tokens.drop later }

/-- Says whether a node may become a key from here on. -/
def allowKey (allowed : Bool) (l : Lexer) : Lexer := { l with keyAllowed := allowed }

/-! ## Candidates -/

/-- The innermost candidate. -/
def candidate (l : Lexer) : Option Candidate := l.candidates.head?.join

/-- Replaces the innermost candidate. -/
def setCandidate (k : Option Candidate) (l : Lexer) : Lexer :=
  { l with candidates := k :: l.candidates.drop 1 }

/-- Gives up the innermost candidate; one that had to become a key is an error. -/
def drop (l : Lexer) : Except Fault Lexer :=
  match l.candidate with
  | some k => if k.required then .error .missingColon else .ok (l.setCandidate none)
  | none => .ok l

/-- Makes the node at the place the innermost candidate. -/
def nominate (l : Lexer) : Except Fault Lexer :=
  if l.keyAllowed then do
    let l ← l.drop
    let c := l.place
    .ok (l.setCandidate (some
      { required := !l.inFlow && l.indent = c.column, position := l.tokens.length, index := c.index,
        line := c.line, column := c.column }))
  else .ok l

/-- Whether a candidate is on an earlier line, or more than 1024 characters away. -/
def isStale (c : Cursor) (k : Candidate) : Bool := k.line < c.line || k.index + 1024 < c.index

/-- Gives up the candidates that are too far away. -/
def dropStale (l : Lexer) : Except Fault Lexer :=
  if l.candidates.any (·.any fun k => isStale l.place k && k.required) then .error .missingColon
  else .ok { l with candidates := l.candidates.map (·.filter fun k => !isStale l.place k) }

/-! ## Indentation -/

/-- Opens a block collection at a column, unless one is open there. -/
def openBlock (column : Nat) (position : Nat) (t : Token) (l : Lexer) : Lexer :=
  if !l.inFlow ∧ l.indent < column then
    { l.emitAt position t with indent := column, outer := l.indent :: l.outer }
  else l

/-- Closes the block collections right of a column. -/
def closeAbove (column : Int) : List Int → Int → List Token → Int × List Int × List Token
  | [], indent, tokens => (indent, [], tokens)
  | o :: outer, indent, tokens =>
    if column < indent then closeAbove column outer o (.blockEnd :: tokens)
    else (indent, o :: outer, tokens)

/-- Closes the block collections right of a column, outside of flow collections. -/
def closeBlocks (column : Int) (l : Lexer) : Lexer :=
  if l.inFlow then l
  else
    let (indent, outer, tokens) := closeAbove column l.outer l.indent l.tokens
    { l with indent := indent, outer := outer, tokens := tokens }

/-! ## Blanks and comments -/

/-- Goes on to the next token. A line end outside of flow collections allows a key again; before a
key may stand, tabs are no blanks. A byte order mark in front of the text is passed over like a blank,
so it moves the first line by a column. -/
def toNext : Nat → Lexer → Lexer
  | 0, l => l
  | fuel + 1, l =>
    let c := l.place
    let c := if c.index = 0 ∧ c.rest.head? = some '\ufeff' then c.skip 1 else c
    let c := c.skipWhile fun d => d = ' ' || ((l.inFlow || !l.keyAllowed) && d = '\t')
    let c := if c.rest.head? = some '#' then c.skipWhile (! isBreak ·) else c
    if c.rest.head?.any isBreak then
      toNext fuel { l with place := c.skipBreak, keyAllowed := l.keyAllowed || !l.inFlow }
    else { l with place := c }

/-! ## Tokens -/

/-- Reads a token whose node may become a key. -/
def node (read : Cursor → Except Fault (Token × Cursor)) (l : Lexer) : Except Fault Lexer := do
  let l ← l.nominate
  let (t, c) ← read l.place
  .ok { (l.emit t).allowKey false with place := c }

/-- Starts a flow collection. -/
def openFlow (t : Token) (l : Lexer) : Except Fault Lexer := do
  let l ← l.nominate
  .ok (({ l with candidates := none :: l.candidates }.allowKey true).advance t 1)

/-- Ends a flow collection. -/
def closeFlow (t : Token) (l : Lexer) : Except Fault Lexer := do
  let l ← l.drop
  let l := if l.inFlow then { l with candidates := l.candidates.drop 1 } else l
  .ok ((l.allowKey false).advance t 1)

/-- An entry of a block sequence. -/
def blockEntry (l : Lexer) : Except Fault Lexer := do
  let l ←
    if l.inFlow then .ok l
    else if l.keyAllowed then
      .ok (l.openBlock l.place.column l.tokens.length .blockSequenceStart)
    else .error .misplacedEntry
  let l ← l.drop
  .ok ((l.allowKey true).advance .blockEntry 1)

/-- A key after a question mark. -/
def key (l : Lexer) : Except Fault Lexer := do
  let l ←
    if l.inFlow then .ok l
    else if l.keyAllowed then
      .ok (l.openBlock l.place.column l.tokens.length .blockMappingStart)
    else .error .misplacedKey
  let l ← l.drop
  .ok ((l.allowKey !l.inFlow).advance .key 1)

/-- The colon before a value. It turns the innermost candidate into a key. -/
def value (l : Lexer) : Except Fault Lexer :=
  match l.candidate with
  | some k =>
    -- The tokens of the key are there already, so its sign goes in before them.
    let l := (l.emitAt k.position .key).openBlock k.column k.position .blockMappingStart
    .ok (((l.setCandidate none).allowKey false).advance .value 1)
  | none =>
    if l.inFlow then .ok ((l.allowKey false).advance .value 1)
    else if l.keyAllowed then
      let l := l.openBlock l.place.column l.tokens.length .blockMappingStart
      .ok ((l.allowKey true).advance .value 1)
    else .error .misplacedValue

/-- Closes what a line at the left margin closes, before a directive or a mark between documents. -/
def margin (l : Lexer) : Except Fault Lexer := do
  let l ← (l.closeBlocks (-1)).drop
  .ok (l.allowKey false)

/-- A token from a text in some style. -/
def scalarToken (style : Style) (r : List Char × Cursor) : Token × Cursor :=
  (.scalar style (String.ofList r.1), r.2)

/-- A plain scalar; after a line end, a key may follow. -/
def plain (l : Lexer) : Except Fault Lexer := do
  let l ← l.nominate
  let (text, broken, c) ← Scalar.plain l.inFlow l.indent l.place
  .ok { (l.emit (.scalar .plain (String.ofList text))).allowKey broken with place := c }

/-- A block scalar. -/
def block (literal : Bool) (l : Lexer) : Except Fault Lexer := do
  let l ← l.drop
  let r ← Scalar.block literal l.indent l.place
  let (t, c) := scalarToken (if literal then .literal else .folded) r
  .ok { (l.emit t).allowKey true with place := c }

/-- The characters that start no plain scalar. -/
def indicators : List Char := "-?:,[]\x7b\x7d#&*!|>'\"%@\x60".toList

/-- Reads the token at a character. -/
def tokenAt (d : Char) (rest : List Char) (l : Lexer) : Except Fault Lexer :=
  let gap := atGap rest
  match d with
  | '[' => l.openFlow .flowSequenceStart
  | '\x7b' => l.openFlow .flowMappingStart
  | ']' => l.closeFlow .flowSequenceEnd
  | '\x7d' => l.closeFlow .flowMappingEnd
  | ',' => do
    let l ← l.drop
    .ok ((l.allowKey true).advance .flowEntry 1)
  | '-' => if gap then l.blockEntry else l.plain
  | '?' => if l.inFlow || gap then l.key else l.plain
  | ':' => if l.inFlow || gap then l.value else l.plain
  | '*' => l.node fun c => (Property.anchorName c).map fun r => (.alias r.1, r.2)
  | '&' => l.node fun c => (Property.anchorName c).map fun r => (.anchor r.1, r.2)
  | '!' => l.node (Property.tag l.inFlow)
  | '\'' => l.node fun c => (Scalar.quoted true c).map (scalarToken .singleQuoted)
  | '"' => l.node fun c => (Scalar.quoted false c).map (scalarToken .doubleQuoted)
  | _ =>
    if d = '|' ∧ !l.inFlow then l.block true
    else if d = '>' ∧ !l.inFlow then l.block false
    else if isBlank d || isBreak d || indicators.contains d then .error .strayCharacter
    else l.plain

/-- Reads one token. No answer means the end of the text. -/
def step (l : Lexer) : Except Fault (Option Lexer) := do
  let l := l.toNext (l.place.rest.length + 1)
  let l ← l.dropStale
  let l := l.closeBlocks l.place.column
  match l.place.rest with
  | [] => .ok none
  | d :: rest =>
    -- Directives and marks between documents count at the left margin only.
    if l.place.column = 0 ∧ d = '%' then do
      let l ← l.margin
      let (t, c) ← Property.directive l.place
      .ok (some { l.emit t with place := c })
    else if l.place.atDocumentMark then do
      let l ← l.margin
      .ok (some (l.advance (if d = '-' then .documentStart else .documentEnd) 3))
    else (l.tokenAt d rest).map some

/-- Reads all tokens. -/
def all : Nat → Lexer → Except Fault (List Token)
  | 0, l => .ok l.tokens.reverse
  | fuel + 1, l => do
    match ← l.step with
    | some next => all fuel next
    | none =>
      let l := l.toNext (l.place.rest.length + 1)
      let l ← l.dropStale
      let l ← (l.closeBlocks (-1)).drop
      .ok l.tokens.reverse

end Lexer

/-- The tokens of a text. -/
def Token.ofText? (text : List Char) : Except Fault (List Token) :=
  if text.all isAllowed then (Lexer.start text).all (text.length + 1)
  else .error .forbiddenCharacter

end LayeredConfig.Yaml
